import CiteMarkup.Proofs.Template.Segments
/-!
# Parts of a parameter text

The sign of a parameter is the first one with nothing open in front of it (`equalsSign?_eq_some`).
A parameter text is cut into pieces of which all but the last leave nothing open
(`isParted_segments`), and pieces of this kind are found again when they are put together
(`segments_join`).  Pieces that come to as many segments as they are must be of this kind
(`isParted_of_length`): where something is left open, bars are lost that would have counted
(`stateAfter_below`).
-/

namespace CiteMarkup

/-! ## 1. The sign of a parameter -/

section Sign

variable {c : Char} {e : Nat} {t u v w : Text}

/-- The number of brackets that are open behind a text, if no sign in it counts. -/
def depthAfter (t : Text) : Option Nat := stateAfter depthPair? (· = 0) '=' false 0 t

/-- **The sign of a parameter** is the first one with nothing open in front of it. -/
theorem equalsSign?_eq_some : equalsSign? t = some e ↔
    ∃ u v, t = u ++ '=' :: v ∧ e = u.length ∧ depthAfter u = some 0 := by
  constructor
  · intro h
    unfold equalsSign? at h
    split at h
    · rename_i n m ns hp
      obtain rfl : n = e := by simpa using h
      obtain ⟨u, s', hu, hn, ⟨hnil, -⟩ | ⟨v, rfl, hout, -⟩⟩ :=
        exists_of_pieceLengthsFrom (by simp) hp
      · cases hnil
      · obtain rfl : s' = 0 := by simpa using hout
        exact ⟨u, v, rfl, by omega, hu⟩
    · cases h
  · rintro ⟨u, v, rfl, rfl, hu⟩
    rw [depthAfter] at hu
    have hpieces := pieceLengthsFrom_append_sep (isNeutral_depthPair? (c := '=') (by decide)) hu 0 v
    rw [equalsSign?, hpieces, if_pos (by simp)]
    cases hrest : pieceLengthsFrom depthPair? (fun n => n = 0) '=' 0 false 0 v with
    | nil => exact absurd hrest (pieceLengthsFrom_ne_nil _ _ _ _ _ _ _)
    | cons m ms => simp

theorem equalsSign?_append (hu : depthAfter u = some 0) (v : Text) :
    equalsSign? (u ++ '=' :: v) = some u.length :=
  equalsSign?_eq_some.mpr ⟨u, v, rfl, rfl, hu⟩

theorem isLabel_blank (h : ∀ c ∈ w, isBlank c = true) : IsLabel w :=
  isLabel_of_all (by decide) h

theorem isLabel_digits (h : w.all isAsciiDigit = true) : IsLabel w :=
  isLabel_of_all (by decide) (List.all_eq_true.mp h)

/-- Labels behind a text change nothing of what is open behind it. -/
theorem depthAfter_append (hw : IsLabel w) (u : Text) : depthAfter (u ++ w) = depthAfter u := by
  refine stateAfter_append_end (fun c hc => ?_) 0 u
  have hno := hw c hc
  simp only [List.mem_cons, List.not_mem_nil, or_false, not_or] at hno
  exact ⟨isNeutral_depthPair? (by simp [brackets, hno]), hno.2.1⟩

theorem depthAfter_label (hw : IsLabel w) : depthAfter w = some 0 :=
  depthAfter_append hw []

/-- The sign behind a label is the one that counts. -/
theorem equalsSign?_label (hu : IsLabel u) (v : Text) :
    equalsSign? (u ++ '=' :: v) = some u.length :=
  equalsSign?_append (depthAfter_label hu) v

end Sign

/-! ## 2. Parts of a parameter text -/

section Parts

variable {c : Char} {t u v w : Text} {parts : List Text}

/-- What is open behind a text, if no bar in it counts. -/
def nestingAfter (t : Text) : Option Nesting :=
  stateAfter Nesting.pair? Nesting.isOutside '|' false {} t

/-- No bar of the text counts. -/
def IsPiece (t : Text) : Prop := (nestingAfter t).isSome = true

/-- A text is closed if nothing is open behind it and no bar in it counts. -/
theorem isClosed_iff : IsClosed t ↔ nestingAfter t = some {} := isClosedFrom_iff false {} t

theorem IsClosed.isPiece (h : IsClosed t) : IsPiece t := by
  rw [IsPiece, isClosed_iff.mp h]
  rfl

/-- A piece does not begin with a bar. -/
theorem IsPiece.head_ne (h : IsPiece t) : t.head? ≠ some '|' := by
  intro hbar
  obtain ⟨r, rfl⟩ : ∃ r, t = '|' :: r := by
    cases t with
    | nil => cases hbar
    | cons c r => exact ⟨r, by rw [Option.some.inj hbar]⟩
  rw [IsPiece, nestingAfter, stateAfter,
    (isNeutral_nesting (c := '|') (by decide)).bind_eq_none] at h
  cases h

/-- Characters that are neither brackets nor bars. -/
def IsInert (w : Text) : Prop := ∀ c ∈ w, c ∉ '|' :: brackets

theorem IsInert.neutral (h : IsInert w) : ∀ c ∈ w, IsNeutral Nesting.pair? c ∧ c ≠ '|' := by
  intro c hc
  obtain ⟨hbar, hbracket⟩ := not_or.mp (List.mem_cons.not.mp (h c hc))
  exact ⟨isNeutral_nesting hbracket, hbar⟩

theorem IsInert.append (hu : IsInert u) (hv : IsInert v) : IsInert (u ++ v) := by
  intro c hc
  rcases List.mem_append.mp hc with hc | hc
  · exact hu c hc
  · exact hv c hc

theorem IsLabel.inert (h : IsLabel w) : IsInert w := by
  have hsub : ∀ d ∈ '|' :: brackets, d ∈ ['|', '=', '{', '[', '}', ']'] := by
    simp [brackets]
  intro c hc hmem
  exact h c hc (hsub c hmem)

/-- Inert texts around a text do not matter. -/
theorem nestingAfter_between (hu : IsInert u) (hv : IsInert v) (t : Text) :
    nestingAfter (u ++ (t ++ v)) = nestingAfter t := by
  rw [nestingAfter, stateAfter_neutral_append hu.neutral, stateAfter_append_end hv.neutral]
  rfl

/-- What stands behind an inert text is read from what is open in front of that. -/
theorem nestingAfter_append (hw : IsInert w) (hne : w ≠ []) (u v : Text) :
    nestingAfter (u ++ (w ++ v)) = (nestingAfter u).bind fun s =>
      stateAfter Nesting.pair? Nesting.isOutside '|' false s v :=
  stateAfter_append_neutral hw.neutral hne {} u v

/-- Parts that are found again when they are put together with bars: no bar in them counts, and
all but the last leave nothing open. -/
structure IsParted (parts : List Text) : Prop where
  piece : ∀ u ∈ parts, IsPiece u
  closed : parts.Pairwise fun u _ => IsClosed u

theorem isParted_of_closed (h : ∀ u ∈ parts, IsClosed u) : IsParted parts :=
  ⟨fun u hu => (h u hu).isPiece,
    List.pairwise_iff_forall_sublist.mpr fun hab => h _ (hab.subset List.mem_cons_self)⟩

/-- **The segments of a parameter text** are parts of this kind, and make up the text. -/
theorem isParted_segments (t : Text) :
    Text.join ['|'] (cutApart (segmentLengths t) t) = t ∧
      IsParted (cutApart (segmentLengths t) t) := by
  generalize hlengths : segmentLengths t = lengths
  induction lengths generalizing t with
  | nil => exact absurd hlengths (pieceLengthsFrom_ne_nil _ _ _ _ _ _ _)
  | cons k ks ih =>
    obtain ⟨u, s', hu, hk, ⟨rfl, rfl⟩ | ⟨v, rfl, hout, hv⟩⟩ :=
      exists_of_pieceLengthsFrom (by simp) hlengths
    · have hcut : cutApart [k] t = [t] := by
        rw [cutApart, cutApart, List.take_of_length_le (by omega)]
      have hpiece : IsPiece t := by
        rw [IsPiece, nestingAfter, hu]
        rfl
      rw [hcut]
      exact ⟨by simp [Text.join], by simpa using hpiece, List.pairwise_singleton _ _⟩
    · obtain rfl : k = u.length := by omega
      obtain rfl := Nesting.eq_of_isOutside hout
      obtain ⟨hjoin, hparted⟩ := ih v hv
      have hclosed : IsClosed u := isClosed_iff.mpr hu
      have hcut : cutApart (u.length :: ks) (u ++ '|' :: v) = u :: cutApart ks v := by
        rw [cutApart, List.take_left, ← List.drop_drop, List.drop_left, List.drop_one,
          List.tail_cons]
      obtain ⟨first, rest, hrest⟩ : ∃ first rest, cutApart ks v = first :: rest := by
        cases hks : ks with
        | nil =>
          rw [hks] at hv
          exact absurd hv (pieceLengthsFrom_ne_nil _ _ _ _ _ _ _)
        | cons j js => exact ⟨_, _, rfl⟩
      rw [hrest] at hjoin hparted
      rw [hcut, hrest, join_cons, hjoin]
      exact ⟨rfl, List.forall_mem_cons.mpr ⟨hclosed.isPiece, hparted.piece⟩,
        List.pairwise_cons.mpr ⟨fun _ _ => hclosed, hparted.closed⟩⟩

/-- **Parts that are put together with bars are found again.** -/
theorem segments_join (hne : parts ≠ []) (h : IsParted parts) :
    cutApart (segmentLengths (Text.join ['|'] parts)) (Text.join ['|'] parts) = parts := by
  induction parts with
  | nil => exact absurd rfl hne
  | cons u rest ih =>
    cases rest with
    | nil =>
      obtain ⟨s', hu⟩ := Option.isSome_iff_exists.mp (h.piece u List.mem_cons_self)
      have hjoin : Text.join ['|'] [u] = u := by simp [Text.join]
      rw [hjoin, segmentLengths, pieceLengthsFrom_of_stateAfter hu, cutApart, cutApart,
        List.take_of_length_le (by omega)]
    | cons v rest =>
      have hclosed : IsClosed u := (List.pairwise_cons.mp h.closed).1 v List.mem_cons_self
      have hrest := ih (by simp) ⟨fun w hw => h.piece w (List.mem_cons_of_mem _ hw),
        (List.pairwise_cons.mp h.closed).2⟩
      have hlengths : segmentLengths (u ++ '|' :: Text.join ['|'] (v :: rest)) =
          u.length :: segmentLengths (Text.join ['|'] (v :: rest)) := by
        rw [segmentLengths, pieceLengthsFrom_append_sep (isNeutral_nesting (by decide))
          (isClosed_iff.mp hclosed), Nat.zero_add]
        rfl
      rw [join_cons, hlengths, cutApart, List.take_left, ← List.drop_drop, List.drop_left,
        List.drop_one, List.tail_cons, hrest]

end Parts

/-! ## 3. Where more is open -/

/-- No more brackets of either kind are open. -/
def Nesting.Below (s s' : Nesting) : Prop := s.templates ≤ s'.templates ∧ s.links ≤ s'.links

section Below

variable {s s' s₁ : Nesting} {b : Bool} {t u : Text} {parts : List Text}

/-- A pair that closes what is open only in another state: it is no pair here, and neither is its
second character with what stands behind it. -/
def Nesting.ClosesOnly (s s' : Nesting) (c d : Char) : Prop :=
  d = c ∧ c ≠ '|' ∧ (∀ e, s.pair? c e = none) ∧ ∃ n', s'.pair? c d = some n' ∧ s.Below n'

/-- Where more is open, a pair that opens or closes something does so as well. -/
theorem Nesting.Below.pair? (h : s.Below s') (c d : Char) :
    (∃ n n', s.pair? c d = some n ∧ s'.pair? c d = some n' ∧ n.Below n') ∨
      s.pair? c d = none ∧ (s'.pair? c d = none ∨ s.ClosesOnly s' c d) := by
  obtain ⟨htemplates, hlinks⟩ := h
  by_cases hd : c = d
  · subst hd
    by_cases hopen : c = '{'
    · subst hopen
      exact .inl ⟨_, _, rfl, rfl, Nat.succ_le_succ htemplates, hlinks⟩
    by_cases hlink : c = '['
    · subst hlink
      exact .inl ⟨_, _, rfl, rfl, htemplates, Nat.succ_le_succ hlinks⟩
    by_cases hclose : c = '}'
    · subst hclose
      have hpair : ∀ n : Nesting, n.pair? '}' '}' =
          if n.templates = 0 then none else some { n with templates := n.templates - 1 } :=
        fun _ => rfl
      rw [hpair, hpair]
      by_cases h0 : s.templates = 0
      · rw [if_pos h0]
        refine .inr ⟨rfl, ?_⟩
        by_cases h0' : s'.templates = 0
        · exact .inl (if_pos h0')
        · refine .inr ⟨rfl, by decide, fun e => ?_, _, (hpair s').trans (if_neg h0'), ?_, hlinks⟩
          · simp [Nesting.pair?, h0]
          · simp [h0]
      · rw [if_neg h0, if_neg (by omega)]
        exact .inl ⟨_, _, rfl, rfl, Nat.sub_le_sub_right htemplates 1, hlinks⟩
    by_cases hunlink : c = ']'
    · subst hunlink
      have hpair : ∀ n : Nesting, n.pair? ']' ']' =
          if n.links = 0 then none else some { n with links := n.links - 1 } :=
        fun _ => rfl
      rw [hpair, hpair]
      by_cases h0 : s.links = 0
      · rw [if_pos h0]
        refine .inr ⟨rfl, ?_⟩
        by_cases h0' : s'.links = 0
        · exact .inl (if_pos h0')
        · refine .inr ⟨rfl, by decide, fun e => ?_, _, (hpair s').trans (if_neg h0'),
            htemplates, ?_⟩
          · simp [Nesting.pair?, h0]
          · simp [h0]
      · rw [if_neg h0, if_neg (by omega)]
        exact .inl ⟨_, _, rfl, rfl, htemplates, Nat.sub_le_sub_right hlinks 1⟩
    have hnone : ∀ n : Nesting, n.pair? c c = none := by
      intro n
      simp [Nesting.pair?, hopen, hlink, hclose, hunlink]
    exact .inr ⟨hnone s, .inl (hnone s')⟩
  · have hnone : ∀ n : Nesting, n.pair? c d = none := fun n => if_pos hd
    exact .inr ⟨hnone s, .inl (hnone s')⟩

theorem Nesting.Below.isOutside (h : s.Below s') (hout : s'.isOutside = true) :
    s.isOutside = true := by
  obtain ⟨htemplates, hlinks⟩ := h
  obtain rfl := Nesting.eq_of_isOutside hout
  simp only at htemplates hlinks
  simp only [Nesting.isOutside, Bool.and_eq_true, decide_eq_true_eq]
  omega

/-- **Where more is open, a bar that does not count does not count either.** -/
theorem stateAfter_below (h : s.Below s')
    (ht : stateAfter Nesting.pair? Nesting.isOutside '|' b s t = some s₁) :
    ∃ s₁', stateAfter Nesting.pair? Nesting.isOutside '|' b s' t = some s₁' ∧ s₁.Below s₁' := by
  induction hn : t.length using Nat.strongRecOn generalizing t b s s' with
  | ind n ih =>
  cases t with
  | nil =>
    cases b with
    | true => cases ht
    | false =>
      obtain rfl := Option.some.inj ht
      exact ⟨s', rfl, h⟩
  | cons c r =>
    rw [List.length_cons] at hn
    cases b with
    | true =>
      rw [stateAfter] at ht ⊢
      exact ih r.length (by omega) h ht rfl
    | false =>
      -- without a pair in either state both go on with the next character
      have single : r.head?.bind (s.pair? c) = none → r.head?.bind (s'.pair? c) = none →
          ∃ s₁', stateAfter Nesting.pair? Nesting.isOutside '|' false s' (c :: r) = some s₁' ∧
            s₁.Below s₁' := by
        intro hnone hnone'
        rw [stateAfter, hnone] at ht
        rw [stateAfter, hnone']
        simp only at ht ⊢
        split at ht
        · cases ht
        · rename_i hbar
          rw [if_neg fun hbar' => hbar ?_]
          · exact ih r.length (by omega) h ht rfl
          · rw [Bool.and_eq_true] at hbar' ⊢
            exact ⟨hbar'.1, h.isOutside hbar'.2⟩
      cases r with
      | nil => exact single rfl rfl
      | cons d r =>
        rcases h.pair? c d with ⟨m, m', hm, hm', hbelow⟩ |
          ⟨hnone, hnone' | ⟨rfl, hc, hnext, m', hm', hbelow⟩⟩
        · rw [stateAfter, List.head?_cons, Option.bind_some, hm] at ht
          rw [stateAfter, List.head?_cons, Option.bind_some, hm']
          exact ih (d :: r).length (by omega) hbelow ht rfl
        · exact single hnone hnone'
        · -- the pair closes nothing here, and its second character goes by as well
          have hnone' : r.head?.bind (s.pair? d) = none := by
            cases r with
            | nil => rfl
            | cons e r => exact hnext e
          have hgo : stateAfter Nesting.pair? Nesting.isOutside '|' false s r = some s₁ := by
            rw [stateAfter, List.head?_cons, Option.bind_some, hnone] at ht
            simp only [hc, decide_false, Bool.false_and, Bool.false_eq_true, if_false] at ht
            rw [stateAfter, hnone'] at ht
            simpa only [hc, decide_false, Bool.false_and, Bool.false_eq_true, if_false] using ht
          rw [stateAfter, List.head?_cons, Option.bind_some, hm']
          simp only [stateAfter]
          exact ih r.length (by rw [← hn, List.length_cons]; omega) hbelow hgo rfl

/-- What is read of the first of several parts, and where the others begin. -/
theorem pieceLengthsFrom_join (hu : IsPiece u) (v : Text) (rest : List Text) (s : Nesting) :
    ∃ s', (s = {} → nestingAfter u = some s') ∧
      ∀ n, pieceLengthsFrom Nesting.pair? Nesting.isOutside '|' n false s
          (Text.join ['|'] (u :: v :: rest)) =
        if s'.isOutside then (n + u.length) :: pieceLengthsFrom Nesting.pair? Nesting.isOutside '|'
          0 false s' (Text.join ['|'] (v :: rest))
        else pieceLengthsFrom Nesting.pair? Nesting.isOutside '|' (n + u.length + 1) false s'
          (Text.join ['|'] (v :: rest)) := by
  obtain ⟨s₁, hs₁⟩ := Option.isSome_iff_exists.mp hu
  obtain ⟨s', hs', -⟩ := stateAfter_below (⟨Nat.zero_le _, Nat.zero_le _⟩ : Nesting.Below {} s) hs₁
  refine ⟨s', fun hs => ?_, fun n => ?_⟩
  · rw [nestingAfter, ← hs, hs']
  · rw [join_cons, pieceLengthsFrom_append_sep (isNeutral_nesting (by decide)) hs']

/-- Parts come to no more pieces than they are. -/
theorem length_pieces_le (hpiece : ∀ u ∈ parts, IsPiece u) (hne : parts ≠ []) (n : Nat)
    (s : Nesting) : (pieceLengthsFrom Nesting.pair? Nesting.isOutside '|' n false s
      (Text.join ['|'] parts)).length ≤ parts.length := by
  induction parts generalizing n s with
  | nil => exact absurd rfl hne
  | cons u rest ih =>
    have hu := hpiece u List.mem_cons_self
    cases rest with
    | nil =>
      obtain ⟨s₁, hs₁⟩ := Option.isSome_iff_exists.mp hu
      obtain ⟨s', hs', -⟩ :=
        stateAfter_below (⟨Nat.zero_le _, Nat.zero_le _⟩ : Nesting.Below {} s) hs₁
      have hjoin : Text.join ['|'] [u] = u := by simp [Text.join]
      rw [hjoin, pieceLengthsFrom_of_stateAfter hs']
      exact Nat.le_refl _
    | cons v rest =>
      have hrest := ih (fun w hw => hpiece w (List.mem_cons_of_mem _ hw)) (by simp)
      obtain ⟨s', -, hread⟩ := pieceLengthsFrom_join hu v rest s
      rw [hread, List.length_cons]
      split
      · exact Nat.succ_le_succ (hrest 0 s')
      · exact Nat.le_succ_of_le (hrest _ s')

/-- **Parts that come to as many segments as they are can be told apart.** -/
theorem isParted_of_length (hpiece : ∀ u ∈ parts, IsPiece u)
    (h : parts.length ≤ (segmentLengths (Text.join ['|'] parts)).length) : IsParted parts := by
  induction parts with
  | nil => exact ⟨by simp, .nil⟩
  | cons u rest ih =>
    have hu := hpiece u List.mem_cons_self
    have hrest := fun w hw => hpiece w (List.mem_cons_of_mem u hw)
    cases rest with
    | nil => exact ⟨hpiece, List.pairwise_singleton _ _⟩
    | cons v rest =>
      obtain ⟨s', hs', hread⟩ := pieceLengthsFrom_join hu v rest {}
      rw [segmentLengths, hread, List.length_cons] at h
      split at h
      · rename_i hout
        obtain rfl := Nesting.eq_of_isOutside hout
        have hclosed : IsClosed u := isClosed_iff.mpr (hs' rfl)
        have hparted := ih hrest (Nat.le_of_succ_le_succ h)
        exact ⟨hpiece, List.pairwise_cons.mpr ⟨fun _ _ => hclosed, hparted.closed⟩⟩
      · -- the first bar does not count, so there are too few segments
        have hle := length_pieces_le hrest (by simp) (0 + u.length + 1) s'
        omega

end Below

end CiteMarkup
