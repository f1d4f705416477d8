import CiteMarkup.Proofs.Template.Reading
import CiteMarkup.Proofs.Template.Split
import CiteMarkup.Proofs.Text.Value
/-!
# Segments of a parameter text

A text can stand between two bars of a template if no bar in it counts and nothing is open at its
end (`IsClosed`).  So the segments of a parameter text that is put together from such texts are
as long as these texts (`segmentLengths_join`), and if their braces balance as well, the
template ends where it should (`isInner_barred`).  A label, in which no bracket and no separator
stands, can stand between two bars (`isSegment_label`).
-/

namespace CiteMarkup

/-! ## 1. Closed texts -/

/-- No bar of the text counts as a separator, and nothing is open at its end.  `inPair` says
that the first character is the second one of a pair. -/
def isClosedFrom : (inPair : Bool) → Nesting → Text → Bool
  | inPair, s, [] => !inPair && s.isOutside
  | true, s, _ :: r => isClosedFrom false s r
  | false, s, c :: r =>
    match r.head?.bind (s.pair? c) with
    | some s' => isClosedFrom true s' r
    | none => !(c = '|' && s.isOutside) && isClosedFrom false s r

/-- The text can stand between two bars. -/
def IsClosed (t : Text) : Prop := isClosedFrom false {} t = true

instance (t : Text) : Decidable (IsClosed t) := inferInstanceAs (Decidable (_ = true))

section Closed

variable {t u v : Text} {s : Nesting} {b : Bool} {c : Char}

theorem Nesting.eq_of_isOutside (h : s.isOutside = true) : s = {} := by
  obtain ⟨templates, links⟩ := s
  obtain ⟨rfl, rfl⟩ : templates = 0 ∧ links = 0 := by simpa [isOutside] using h
  rfl

/-- A character that is no bracket makes no pair with the one in front of it. -/
theorem Nesting.pair?_eq_none (hc : c ∉ ['{', '}', '[', ']']) (s : Nesting) (d : Char) :
    s.pair? d c = none := by
  simp only [List.mem_cons, List.not_mem_nil, or_false, not_or] at hc
  obtain ⟨h1, h2, h3, h4⟩ := hc
  unfold pair?
  split
  · rfl
  · rename_i hd
    obtain rfl : d = c := Decidable.not_not.mp hd
    rw [if_neg h1, if_neg h2, if_neg h3, if_neg h4]

/-- Nor does it make one with the character behind it. -/
theorem Nesting.bind_pair?_eq_none (hc : c ∉ ['{', '}', '[', ']']) (s : Nesting) (r : Text) :
    r.head?.bind (s.pair? c) = none := by
  cases r with
  | nil => rfl
  | cons d r =>
    rw [List.head?_cons, Option.bind_some]
    by_cases heq : c = d
    · exact heq ▸ s.pair?_eq_none hc c
    · rw [pair?, if_pos heq]

theorem isNeutral_nesting (hc : c ∉ brackets) : IsNeutral Nesting.pair? c := by
  intro s d
  exact ⟨s.bind_pair?_eq_none hc [d], s.pair?_eq_none hc d⟩

/-- A text is closed if it can be read to its end with no bar that counts, and nothing is open
there. -/
theorem isClosedFrom_iff (b : Bool) (s : Nesting) (t : Text) : isClosedFrom b s t = true ↔
    stateAfter Nesting.pair? Nesting.isOutside '|' b s t = some {} := by
  induction t generalizing b s with
  | nil =>
    cases b with
    | true => simp [isClosedFrom, stateAfter]
    | false =>
      simp only [isClosedFrom, stateAfter, Bool.not_false, Bool.true_and, Option.some.injEq]
      constructor
      · exact Nesting.eq_of_isOutside
      · rintro rfl
        rfl
  | cons c r ih =>
    cases b with
    | true => exact ih false s
    | false =>
      rw [isClosedFrom, stateAfter]
      cases r.head?.bind (s.pair? c) with
      | some s' => exact ih true s'
      | none =>
        rw [Bool.and_eq_true, ih]
        cases decide (c = '|') && s.isOutside with
        | true => simp
        | false => simp

/-- A closed text is one piece. -/
theorem pieceLengthsFrom_closed (h : isClosedFrom b s t = true) (n : Nat) :
    pieceLengthsFrom Nesting.pair? Nesting.isOutside '|' n b s t = [n + t.length] :=
  pieceLengthsFrom_of_stateAfter ((isClosedFrom_iff b s t).mp h) n

/-- A closed text in front of a bar is the first piece. -/
theorem pieceLengthsFrom_closed_append (h : isClosedFrom b s t = true) (n : Nat) (rest : Text) :
    pieceLengthsFrom Nesting.pair? Nesting.isOutside '|' n b s (t ++ '|' :: rest) =
      (n + t.length) :: pieceLengthsFrom Nesting.pair? Nesting.isOutside '|' 0 false {} rest :=
  pieceLengthsFrom_append_sep (isNeutral_nesting (by simp [brackets]))
    ((isClosedFrom_iff b s t).mp h) n rest

/-- A character that is neither a bar nor a bracket does not matter. -/
theorem isClosedFrom_cons (hc : c ∉ ['|', '{', '}', '[', ']']) (s : Nesting) (r : Text) :
    isClosedFrom false s (c :: r) = isClosedFrom false s r := by
  obtain ⟨hbar, hbracket⟩ := not_or.mp (List.mem_cons.not.mp hc)
  rw [isClosedFrom, s.bind_pair?_eq_none hbracket]
  simp [hbar]

/-- Behind a closed text and such a character the reading begins anew. -/
theorem isClosedFrom_append_cons (hc : c ∉ ['|', '{', '}', '[', ']'])
    (hu : isClosedFrom b s u = true) (v : Text) :
    isClosedFrom b s (u ++ c :: v) = isClosedFrom false {} v := by
  obtain ⟨hbar, hbracket⟩ := not_or.mp (List.mem_cons.not.mp hc)
  rw [isClosedFrom_iff] at hu
  have hne : b = true → u ≠ [] := by
    rintro rfl rfl
    cases hu
  rw [Bool.eq_iff_iff, isClosedFrom_iff, isClosedFrom_iff,
    stateAfter_append_cons (isNeutral_nesting hbracket) hne, hu, Option.bind_some]
  simp [hbar]

theorem IsClosed.append_cons (hu : IsClosed u) (hc : c ∉ ['|', '{', '}', '[', ']'])
    (hv : IsClosed v) : IsClosed (u ++ c :: v) :=
  (isClosedFrom_append_cons hc hu v).trans hv

end Closed

/-! ## 2. Segments -/

section Segments

variable {segments : List Text}

theorem join_cons (sep : Char) (first second : Text) (rest : List Text) :
    Text.join [sep] (first :: second :: rest) =
      first ++ sep :: Text.join [sep] (second :: rest) := by
  simp [Text.join]

/-- What stands in no part and not in what separates them does not stand between either. -/
theorem not_mem_join {sep : Text} (hsep : c ∉ sep) (h : ∀ u ∈ segments, c ∉ u) :
    c ∉ Text.join sep segments := by
  induction segments with
  | nil => exact List.not_mem_nil
  | cons u rest ih =>
    have hu := h u List.mem_cons_self
    have hrest := ih fun v hv => h v (List.mem_cons_of_mem _ hv)
    cases rest with
    | nil => simpa [Text.join] using hu
    | cons v rest =>
      have hjoin : Text.join sep (u :: v :: rest) = u ++ (sep ++ Text.join sep (v :: rest)) := by
        simp [Text.join]
      simp only [hjoin, List.mem_append, not_or]
      exact ⟨hu, hsep, hrest⟩

/-- **The segments of a written parameter text are as long as what it was written from.** -/
theorem segmentLengths_join (hne : segments ≠ []) (h : ∀ s ∈ segments, IsClosed s) :
    segmentLengths (Text.join ['|'] segments) = segments.map List.length := by
  induction segments with
  | nil => exact absurd rfl hne
  | cons s rest ih =>
    cases rest with
    | nil =>
      have hjoin : Text.join ['|'] [s] = s := by simp [Text.join]
      rw [hjoin, segmentLengths, pieceLengthsFrom_closed (h s List.mem_cons_self), Nat.zero_add]
      rfl
    | cons s' rest =>
      have hrest := ih (by simp) fun x hx => h x (List.mem_cons_of_mem _ hx)
      rw [join_cons, segmentLengths, pieceLengthsFrom_closed_append (h s List.mem_cons_self),
        Nat.zero_add, ← segmentLengths, hrest]
      rfl

theorem head?_join {s : Text} (hs : s ≠ []) (rest : List Text) :
    (Text.join ['|'] (s :: rest)).head? = s.head? := by
  obtain ⟨c, r, rfl⟩ := List.exists_cons_of_ne_nil hs
  cases rest with
  | nil => simp [Text.join]
  | cons s' rest => simp [Text.join]

/-- Parts with a separator in front of each. -/
def barred (segments : List Text) : Text := segments.flatMap ('|' :: ·)

theorem barred_cons (s : Text) (rest : List Text) : barred (s :: rest) = '|' :: s ++ barred rest :=
  List.flatMap_cons

theorem join_eq_flatMap (sep : Char) (first : Text) (rest : List Text) :
    Text.join [sep] (first :: rest) = first ++ rest.flatMap (sep :: ·) := by
  induction rest generalizing first with
  | nil => simp [Text.join]
  | cons u rest ih => rw [join_cons, ih, List.flatMap_cons, List.cons_append]

theorem cons_join (hne : segments ≠ []) : '|' :: Text.join ['|'] segments = barred segments := by
  obtain ⟨first, rest, rfl⟩ := List.exists_cons_of_ne_nil hne
  rw [join_eq_flatMap, barred_cons]
  rfl

/-- A text that can stand between two bars of a template: it has its braces to itself. -/
structure IsSegment (v : Text) : Prop where
  closed : IsClosed v
  braces : braceDepth 0 false v = some 0

instance (v : Text) : Decidable (IsSegment v) :=
  decidable_of_iff (IsClosed v ∧ braceDepth 0 false v = some 0)
    ⟨fun h => ⟨h.1, h.2⟩, fun h => ⟨h.closed, h.braces⟩⟩

theorem braceDepth_cons {c : Char} (hc : c ∉ ['{', '}']) (n : Nat) (v : Text) :
    braceDepth n false (c :: v) = braceDepth n false v := by
  simp only [List.mem_cons, List.not_mem_nil, or_false, not_or] at hc
  rw [braceDepth]
  simp [hc.1, hc.2]

theorem braceDepth_append_cons {c : Char} {u : Text} (hc : c ∉ ['{', '}'])
    (hu : braceDepth 0 false u = some 0) (v : Text) :
    braceDepth 0 false (u ++ c :: v) = braceDepth 0 false v := by
  have hne : c ≠ '{' := fun h => hc (by simp [h])
  rw [braceDepth_append hu (by simpa using hne), braceDepth_cons hc]

theorem IsSegment.append_cons {c : Char} {u v : Text} (hu : IsSegment u)
    (hc : c ∉ ['|', '{', '}', '[', ']']) (hv : IsSegment v) : IsSegment (u ++ c :: v) := by
  refine ⟨hu.closed.append_cons hc hv.closed, ?_⟩
  rw [braceDepth_append_cons _ hu.braces, hv.braces]
  simp only [List.mem_cons, List.not_mem_nil, or_false, not_or] at hc ⊢
  exact ⟨hc.2.1, hc.2.2.1⟩

theorem isSegment_nil : IsSegment [] := ⟨rfl, rfl⟩

/-- Segments can stand behind the name of a template. -/
theorem isInner_barred (h : ∀ v ∈ segments, IsSegment v) : IsInner (barred segments) := by
  refine ⟨fun c hc => ?_, ?_⟩
  · cases segments with
    | nil => cases hc
    | cons s rest => simpa [barred] using Eq.symm hc
  · induction segments with
    | nil => rfl
    | cons s rest ih =>
      have hrest := ih fun v hv => h v (List.mem_cons_of_mem _ hv)
      have hs := (h s List.mem_cons_self).braces
      rw [barred, List.flatMap_cons, List.cons_append, braceDepth_cons (by decide)]
      cases rest with
      | nil => simpa using hs
      | cons s' rest =>
        rw [braceDepth_append hs (by simp)]
        exact hrest

end Segments

/-! ## 3. Signs and labels -/

theorem equalsSign?_of_not_mem {t : Text} (h : '=' ∉ t) : equalsSign? t = none := by
  rw [equalsSign?, pieceLengthsFrom_of_not_mem _ _ _ h]

theorem isNeutral_depthPair? {c : Char} (hc : c ∉ brackets) : IsNeutral depthPair? c := by
  simp only [brackets, List.mem_cons, List.not_mem_nil, or_false, not_or] at hc
  obtain ⟨h1, h2, h3, h4⟩ := hc
  intro n d
  constructor
  · simp [depthPair?, h1, h2, h3, h4]
  · unfold depthPair?
    split
    · rfl
    · rename_i hd
      obtain rfl : d = c := Decidable.not_not.mp hd
      simp [h1, h2, h3, h4]

/-- A text in which neither a bracket nor a separator stands. -/
def IsLabel (u : Text) : Prop := ∀ c ∈ u, c ∉ ['|', '=', '{', '[', '}', ']']

/-- A text of one kind of characters is a label, if no bracket and no separator is of that kind. -/
theorem isLabel_of_all {w : Text} {P : Char → Bool}
    (hP : ['|', '=', '{', '[', '}', ']'].all (!P ·) = true) (h : ∀ c ∈ w, P c = true) :
    IsLabel w := by
  intro c hc hmem
  have hno := List.all_eq_true.mp hP c hmem
  rw [h c hc] at hno
  cases hno

theorem isLabel_of_isKey {key : Text} (h : IsKey key) : IsLabel key :=
  isLabel_of_all (by decide) h.2

section Labels

variable {u : Text}

/-- A label can stand between two bars. -/
theorem isSegment_label (hu : IsLabel u) : IsSegment u := by
  induction u with
  | nil => exact isSegment_nil
  | cons c u ih =>
    have hc := hu c List.mem_cons_self
    have hrest := ih fun d hd => hu d (List.mem_cons_of_mem _ hd)
    simp only [List.mem_cons, List.not_mem_nil, or_false, not_or] at hc
    refine ⟨?_, ?_⟩
    · exact (isClosedFrom_cons (by simp [hc]) _ _).trans hrest.closed
    · rw [braceDepth_cons (by simp [hc]), hrest.braces]

end Labels
end CiteMarkup
