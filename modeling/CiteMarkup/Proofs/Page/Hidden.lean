import CiteMarkup.Proofs.Page.Split
import CiteMarkup.Proofs.Text.Value
/-!
# Protected parts, whole

A protected part begins with a bracket, and it ends with one or with the text
(`Protected.bracket_of_length?`).  So a page and what the readers see of it agree but for parts
that are whole (`hides_veil`), and they still do when both are cut at a character that is seen
(`Hides.cut`).  Brackets are neither blanks nor digits, so trimming takes the same from both
(`Hides.trim`).
-/

namespace CiteMarkup

/-! ## 1. How a protected part ends -/

namespace Protected

variable {t rest : Text} {n : Nat}

/-- What is left of the text stands behind a bracket. -/
def IsBehindBracket (t rest : Text) : Prop := '>' :: rest <:+ t

theorem IsBehindBracket.of_suffix {u : Text} (h : IsBehindBracket u rest) (hu : u <:+ t) :
    IsBehindBracket t rest :=
  h.trans hu

theorem behind_of_after? (h : after? ['>'] t = some rest) : IsBehindBracket t rest := by
  rw [eq_append_of_after? h]
  exact List.suffix_refl _

theorem suffix_of_repeated? {name : Text} (h : repeated? name t = some rest) : rest <:+ t := by
  induction name generalizing t with
  | nil => exact Option.some.inj h ▸ List.suffix_refl t
  | cons w ws ih =>
    cases t with
    | nil => cases h
    | cons c r =>
      rw [repeated?] at h
      split at h
      · exact (ih h).trans (List.suffix_cons c r)
      · cases h

theorem suffix_of_after? {part : Text} (h : after? part t = some rest) : rest <:+ t := by
  rw [eq_append_of_after? h]
  exact List.suffix_append _ _

theorem behind_of_slashEnd? (h : slashEnd? t = some rest) : IsBehindBracket t rest := by
  unfold slashEnd? at h
  split at h
  · rename_i r hr
    have hsuffix : r <:+ t := (List.suffix_cons '/' r).trans (hr ▸ List.dropWhile_suffix isBlank)
    exact (behind_of_after? h).of_suffix ((List.dropWhile_suffix isBlank).trans hsuffix)
  · cases h

theorem behind_of_closing? {name : Text} (h : closing? name t = some rest) :
    IsBehindBracket t rest := by
  simp only [closing?, Option.bind_eq_bind, Option.bind_eq_some_iff] at h
  obtain ⟨r, hr, s, hs, hrest⟩ := h
  exact (behind_of_after? hrest).of_suffix ((List.dropWhile_suffix isBlank).trans
    ((suffix_of_repeated? hs).trans (suffix_of_after? hr)))

theorem suffix_of_openingEnd? (h : openingEnd? t = some rest) : rest <:+ t := by
  unfold openingEnd? at h
  split at h
  · rename_i c r hr
    split at h
    · cases h
    · obtain rfl := Option.some.inj h
      exact (List.suffix_cons c r).trans (hr ▸ List.dropWhile_suffix _)
  · cases h

/-- What is read up to an end that stands behind a bracket leaves something behind a bracket. -/
theorem behind_of_until? {stop : Text → Option Text} {body : Text}
    (hstop : ∀ {u r : Text}, stop u = some r → IsBehindBracket u r)
    (h : until? stop t = some (body, rest)) : IsBehindBracket t rest := by
  obtain ⟨close, rfl, hclose⟩ := eq_append_of_until? h
  exact (hstop hclose).of_suffix (List.suffix_append _ _)

theorem behind_of_arrow {u r : Text} (h : after? "-->".toList u = some r) :
    IsBehindBracket u r := by
  rw [eq_append_of_after? h]
  exact List.suffix_append "--".toList _

/-- **A protected part ends with a bracket**, or it is the whole text. -/
theorem bracket_of_length? (h : length? t = some n) :
    n = t.length ∨ ∃ rest, IsBehindBracket t rest ∧ n = t.length - rest.length := by
  simp only [length?, Option.orElse_eq_orElse, Option.orElse_eq_or, Option.or_eq_some_iff] at h
  rcases h with (h | ⟨-, h⟩) | ⟨-, h⟩
  · simp only [comment?, Option.map_eq_some_iff] at h
    obtain ⟨r, hr, h⟩ := h
    split at h
    · rename_i body rest hu
      have hsuffix := suffix_of_after? hr
      exact .inr ⟨rest, (behind_of_until? behind_of_arrow hu).of_suffix hsuffix, h.symm⟩
    · exact .inl h.symm
  · simp only [emptyTag?, Option.bind_eq_bind, Option.bind_eq_some_iff] at h
    obtain ⟨r, hr, rest, hrest, h⟩ := h
    exact .inr ⟨rest, (behind_of_slashEnd? hrest).of_suffix (suffix_of_keyword? hr),
      (Option.some.inj h).symm⟩
  · simp only [element?, Option.bind_eq_bind, Option.bind_eq_some_iff] at h
    obtain ⟨r, hr, h⟩ := h
    obtain ⟨name, -, h⟩ := List.exists_of_findSome?_eq_some h
    simp only [Option.bind_eq_some_iff] at h
    obtain ⟨s, hs, h⟩ := h
    split at h
    · cases h
    · simp only [Option.bind_eq_some_iff] at h
      obtain ⟨inside, hinside, ⟨body, rest⟩, hu, h⟩ := h
      have hsuffix : inside <:+ t := (suffix_of_openingEnd? hinside).trans
        ((suffix_of_keyword? hs).trans (suffix_of_after? hr))
      exact .inr ⟨rest, (behind_of_until? behind_of_closing? hu).of_suffix hsuffix,
        (Option.some.inj h).symm⟩

end Protected

/-! ## 2. Whole parts -/

/-- A bracket that begins or ends a protected part. -/
def IsEdge (c : Char) : Prop := c = '<' ∨ c = '>'

/-- The text and what is seen of it agree but for parts that are hidden, each of them whole.  If
the text is not `closed`, its last part may go on to its end. -/
inductive Hides : (closed : Bool) → (raw seen : Text) → Prop
  | nil {b : Bool} : Hides b [] []
  | shown {b : Bool} {c : Char} {r s : Text} (hc : c ≠ veil) (h : Hides b r s) :
      Hides b (c :: r) (c :: s)
  | hidden {b : Bool} {x y : Char} {r s : Text} (inner : Text) (hx : IsEdge x) (hy : IsEdge y)
      (h : Hides b r s) :
      Hides b (x :: (inner ++ y :: r)) (veil :: (inner.map veiled ++ veil :: s))
  | rest {x : Char} (inner : Text) (hx : IsEdge x) :
      Hides false (x :: inner) (veil :: inner.map veiled)

theorem veilFrom_length (part rest : Text) :
    veilFrom part.length (part ++ rest) = part.map veiled ++ rest.veil := by
  induction part with
  | nil => rfl
  | cons c part ih => exact congrArg (veiled c :: ·) ih

theorem veiled_of_isEdge {c : Char} (h : IsEdge c) : veiled c = veil := by
  rcases h with rfl | rfl <;> rfl

/-- **A page hides whole parts.** -/
theorem hides_veil (t : Text) (h : veil ∉ t) : Hides false t t.veil := by
  cases t with
  | nil => exact .nil
  | cons c r =>
    obtain ⟨hc, hr⟩ := not_or.mp (List.mem_cons.not.mp h)
    cases hp : Protected.length? (c :: r) with
    | none =>
      have hseen : Text.veil (c :: r) = c :: Text.veil r := by simp only [Text.veil, veilFrom, hp]
      rw [hseen]
      exact .shown (Ne.symm hc) (hides_veil r hr)
    | some n =>
      have hedge : IsEdge c := by
        by_contra hno
        have hnone := length?_eq_none (fun heq => hno (.inl heq)) r
        rw [hp] at hnone
        cases hnone
      have hseen : Text.veil (c :: r) = veil :: veilFrom (n - 1) r := by
        simp only [Text.veil, veilFrom, hp, veiled_of_isEdge hedge]
      rw [hseen]
      rcases Protected.bracket_of_length? hp with hn | ⟨rest, ⟨front, hfront⟩, hn⟩
      · have hall := veilFrom_length r []
        rw [List.append_nil] at hall
        rw [hn, List.length_cons, Nat.add_sub_cancel, hall]
        simpa [Text.veil, veilFrom] using Hides.rest r hedge
      · -- the part begins with the one bracket and ends with another
        cases front with
        | nil =>
          obtain ⟨rfl, rfl⟩ := List.cons.inj hfront
          have hnone := length?_eq_none (by decide : '>' ≠ '<') rest
          rw [hp] at hnone
          cases hnone
        | cons d inner =>
          rw [List.cons_append] at hfront
          obtain ⟨rfl, rfl⟩ := List.cons.inj hfront
          have hlength : n - 1 = (inner ++ ['>']).length := by
            simp only [List.length_cons, List.length_append, List.length_nil] at hn ⊢
            omega
          have hsplit : inner ++ '>' :: rest = (inner ++ ['>']) ++ rest := by simp
          rw [hlength, hsplit, veilFrom_length, ← hsplit, List.map_append]
          have hrest : veil ∉ rest := fun hm =>
            hr (List.mem_append_right _ (List.mem_cons_of_mem _ hm))
          have hlt : rest.length < (inner ++ '>' :: rest).length + 1 := by
            simp only [List.length_append, List.length_cons]
            omega
          simpa [veiled_of_isEdge (.inr rfl)] using
            Hides.hidden inner hedge (.inr rfl) (hides_veil rest hrest)
termination_by t.length

/-! ## 3. Cutting -/

/-- A character at which a page can be cut: what is no veil and no line end is hidden by
nothing. -/
def IsSeen (c : Char) : Prop := c ≠ veil ∧ c ≠ '\n'

instance (c : Char) : Decidable (IsSeen c) := inferInstanceAs (Decidable (_ ∧ _))

namespace Hides

variable {b : Bool} {c : Char} {r r' s s' : Text}

theorem length_eq (h : Hides b r s) : s.length = r.length := by
  induction h with
  | nil => rfl
  | shown hc h ih => simpa using ih
  | hidden inner hx hy h ih => simp [ih]
  | rest inner hx => simp

theorem append (h : Hides true r s) (h' : Hides b r' s') : Hides b (r ++ r') (s ++ s') := by
  generalize hb : true = closed at h
  induction h with
  | nil => exact h'
  | shown hc h ih => exact .shown hc (ih hb)
  | hidden inner hx hy h ih =>
    have hstep := Hides.hidden inner hx hy (ih hb)
    simpa using hstep
  | rest inner hx => cases hb

/-- What is hidden is the veil or a line end. -/
theorem not_mem_map_veiled (hc : IsSeen c) (t : Text) : c ∉ t.map veiled := by
  intro hm
  obtain ⟨d, -, hd⟩ := List.mem_map.mp hm
  unfold veiled at hd
  split at hd
  · rename_i hd'
    exact hc.2 (hd ▸ hd')
  · exact hc.1 hd.symm

/-- **Cutting at a character that is seen.**  The same character is written there, and the part
before it is closed. -/
theorem cut (h : Hides b r s) (hc : IsSeen c) {before behind : Text}
    (hs : s = before ++ c :: behind) :
    ∃ front back, r = front ++ c :: back ∧ Hides true front before ∧ Hides b back behind := by
  induction h generalizing before with
  | nil => simp at hs
  | @shown b d r s hd h ih =>
    cases before with
    | nil =>
      obtain ⟨rfl, rfl⟩ := List.cons.inj hs
      exact ⟨[], r, rfl, .nil, h⟩
    | cons e before =>
      rw [List.cons_append] at hs
      obtain ⟨rfl, htail⟩ := List.cons.inj hs
      obtain ⟨front, back, rfl, hfront, hback⟩ := ih htail
      exact ⟨d :: front, back, rfl, .shown hd hfront, hback⟩
  | @hidden b x y r s inner hx hy h ih =>
    -- the character stands behind the whole of the part
    have hblock : c ∉ veil :: (inner.map veiled ++ [veil]) := by
      simp only [List.mem_cons, List.mem_append, List.not_mem_nil, or_false, not_or]
      exact ⟨hc.1, not_mem_map_veiled hc inner, hc.1⟩
    have hs' : (veil :: (inner.map veiled ++ [veil])) ++ s = before ++ c :: behind := by
      simpa using hs
    rcases List.append_eq_append_iff.mp hs' with ⟨more, rfl, hmore⟩ | ⟨more, hmore, hrest⟩
    · obtain ⟨front, back, rfl, hfront, hback⟩ := ih hmore
      refine ⟨x :: (inner ++ y :: front), back, by simp, ?_, hback⟩
      simpa using Hides.hidden inner hx hy hfront
    · cases more with
      | nil =>
        obtain ⟨front, back, rfl, hfront, hback⟩ := @ih [] hrest.symm
        refine ⟨x :: (inner ++ y :: front), back, by simp, ?_, hback⟩
        rw [List.append_nil] at hmore
        rw [← hmore]
        simpa using Hides.hidden inner hx hy hfront
      | cons d more =>
        obtain ⟨rfl, -⟩ := List.cons.inj hrest
        exact absurd (hmore ▸ List.mem_append_right _ List.mem_cons_self) hblock
  | @rest x inner hx =>
    have hmem : c ∈ veil :: inner.map veiled := hs ▸ List.mem_append_right _ List.mem_cons_self
    rcases List.mem_cons.mp hmem with rfl | hmem
    · exact absurd rfl hc.1
    · exact absurd hmem (not_mem_map_veiled hc inner)

/-- The cut by its place. -/
theorem cut_at (h : Hides b r s) (hc : IsSeen c) {i : Nat} (hi : s[i]? = some c) :
    r[i]? = some c ∧ Hides true (r.take i) (s.take i) ∧
      Hides b (r.drop (i + 1)) (s.drop (i + 1)) := by
  obtain ⟨hlt, hget⟩ := List.getElem?_eq_some_iff.mp hi
  have hs : s = s.take i ++ c :: s.drop (i + 1) := by
    rw [← hget, List.getElem_cons_drop, List.take_append_drop]
  obtain ⟨front, back, rfl, hfront, hback⟩ := h.cut hc hs
  have hlength : front.length = i := by
    rw [← hfront.length_eq, List.length_take]
    omega
  subst hlength
  refine ⟨by simp, ?_, ?_⟩
  · simpa using hfront
  · simpa using hback

/-- The part between two characters that are seen is closed. -/
theorem slice (h : Hides b r s) {d : Char} (hc : IsSeen c) (hd : IsSeen d) {i j : Nat}
    (hi : s[i]? = some c) (hj : s[j]? = some d) (hij : i < j) :
    Hides true (r.slice (i + 1) j) (s.slice (i + 1) j) := by
  have hfront := (h.cut_at hd hj).2.1
  have hget : (s.take j)[i]? = some c := by rw [List.getElem?_take_of_lt hij, hi]
  exact (hfront.cut_at hc hget).2.2

/-! ## 4. Blanks -/

theorem isBlank_of_isEdge (h : IsEdge c) : isBlank c = false := by
  rcases h with rfl | rfl <;> decide

theorem isBlank_veil : isBlank veil = false := by decide

/-- The same characters of a kind begin both, if edges and the veil are not of it. -/
theorem takeWhile_eq {kind : Char → Bool} (hedge : ∀ c, IsEdge c → kind c = false)
    (hveil : kind veil = false) (h : Hides b r s) : r.takeWhile kind = s.takeWhile kind := by
  induction h with
  | nil => rfl
  | @shown b c r s hc h ih => rw [List.takeWhile_cons, List.takeWhile_cons, ih]
  | hidden inner hx hy h ih =>
    rw [List.takeWhile_cons, List.takeWhile_cons, hedge _ hx, hveil]
    rfl
  | rest inner hx =>
    rw [List.takeWhile_cons, List.takeWhile_cons, hedge _ hx, hveil]
    rfl

theorem leadingBlanks_eq (h : Hides b r s) : r.leadingBlanks = s.leadingBlanks :=
  congrArg List.length (h.takeWhile_eq (fun _ => isBlank_of_isEdge) isBlank_veil)

theorem trimStart (h : Hides b r s) : Hides b r.trimStart s.trimStart := by
  induction h with
  | nil => exact .nil
  | @shown b c r s hc h ih =>
    unfold Text.trimStart at ih ⊢
    rw [List.dropWhile_cons, List.dropWhile_cons]
    split
    · exact ih
    · exact .shown hc h
  | @hidden b x y r s inner hx hy h ih =>
    unfold Text.trimStart
    rw [List.dropWhile_cons_of_neg (by simp [isBlank_of_isEdge hx]),
      List.dropWhile_cons_of_neg (by simp [isBlank_veil])]
    exact .hidden inner hx hy h
  | @rest x inner hx =>
    unfold Text.trimStart
    rw [List.dropWhile_cons_of_neg (by simp [isBlank_of_isEdge hx]),
      List.dropWhile_cons_of_neg (by simp [isBlank_veil])]
    exact .rest inner hx

/-- Read from the other end a part that is whole is whole. -/
theorem reverse (h : Hides true r s) : Hides true r.reverse s.reverse := by
  generalize hb : true = closed at h
  induction h with
  | nil => exact .nil
  | shown hc h ih =>
    rw [List.reverse_cons, List.reverse_cons]
    exact hb ▸ (hb ▸ ih hb : Hides true _ _).append (.shown hc .nil)
  | hidden inner hx hy h ih =>
    have hpart := Hides.hidden (b := true) inner.reverse hy hx .nil
    have hall := (hb ▸ ih hb : Hides true _ _).append hpart
    rw [← hb]
    simpa [List.map_reverse] using hall
  | rest inner hx => cases hb

/-- **Trimming takes the same from a text and from what is seen of it.** -/
theorem trim (h : Hides true r s) : Hides true r.trim s.trim :=
  h.trimStart.reverse.trimStart.reverse

theorem isBlankOnly_eq (h : Hides b r s) : r.isBlankOnly = s.isBlankOnly := by
  unfold Text.isBlankOnly
  induction h with
  | nil => rfl
  | shown hc h ih => rw [List.all_cons, List.all_cons, ih]
  | hidden inner hx hy h ih =>
    rw [List.all_cons, List.all_cons, isBlank_of_isEdge hx, isBlank_veil, Bool.false_and,
      Bool.false_and]
  | rest inner hx =>
    rw [List.all_cons, List.all_cons, isBlank_of_isEdge hx, isBlank_veil, Bool.false_and,
      Bool.false_and]

theorem isEmpty_eq (h : Hides b r s) : r.isEmpty = s.isEmpty := by
  cases h <;> rfl

/-- Nothing is hidden, or a bracket is written and the veil is seen. -/
theorem eq_or_mem (h : Hides b r s) :
    (r = s ∧ veil ∉ s) ∨ (∃ c, IsEdge c ∧ c ∈ r) ∧ veil ∈ s := by
  induction h with
  | nil => exact .inl ⟨rfl, List.not_mem_nil⟩
  | @shown b c r s hc h ih =>
    rcases ih with ⟨rfl, hv⟩ | ⟨⟨x, hx, hm⟩, hv⟩
    · refine .inl ⟨rfl, fun hm => ?_⟩
      rcases List.mem_cons.mp hm with heq | hm
      · exact hc heq.symm
      · exact hv hm
    · exact .inr ⟨⟨x, hx, List.mem_cons_of_mem _ hm⟩, List.mem_cons_of_mem _ hv⟩
  | hidden inner hx hy h ih => exact .inr ⟨⟨_, hx, List.mem_cons_self⟩, List.mem_cons_self⟩
  | rest inner hx => exact .inr ⟨⟨_, hx, List.mem_cons_self⟩, List.mem_cons_self⟩

end Hides

/-! ## 5. Texts that hide nothing -/

section Unopened

variable {t u : Text}

/-- The words that protected parts begin with. -/
def Protected.openers : List Text := "<!--".toList :: elementNames.map ('<' :: ·)

/-- No protected part can begin in the text: none of the words does. -/
def Protected.IsUnopened (t : Text) : Prop :=
  ∀ word ∈ openers, ∀ u, Spells word u → ¬u <:+: t

theorem Protected.IsUnopened.of_infix (h : IsUnopened t) (hu : u <:+: t) : IsUnopened u :=
  fun word hword v hv hspelled => h word hword v hv (hspelled.trans hu)

/-- A text with none of the words begins no protected part. -/
theorem Protected.IsUnopened.length?_eq_none (h : IsUnopened t) : length? t = none := by
  have hcomment : comment? t = none := by
    rw [comment?, Option.map_eq_none_iff, ← Option.not_isSome_iff_eq_none]
    intro hsome
    obtain ⟨rest, hrest⟩ := Option.isSome_iff_exists.mp hsome
    have hword : Spells "<!--".toList "<!--".toList :=
      List.forall₂_same.mpr (List.all_eq_true.mp (by decide))
    refine h _ List.mem_cons_self _ hword ?_
    rw [eq_append_of_after? hrest]
    exact (List.prefix_append _ _).isInfix
  have hnowiki : ∀ rest, keyword? "<nowiki".toList t ≠ some rest := by
    intro rest hrest
    obtain ⟨u, hu, rfl⟩ := keyword?_iff.mp hrest
    exact h "<nowiki".toList (by decide) u hu (List.prefix_append _ _).isInfix
  have hempty : emptyTag? t = none := by
    cases hk : keyword? "<nowiki".toList t with
    | none => exact (congrArg (· >>= _) hk).trans rfl
    | some rest => exact absurd hk (hnowiki rest)
  have helement : element? t = none := by
    cases hr : after? ['<'] t with
    | none => exact (congrArg (· >>= _) hr).trans rfl
    | some r =>
      refine (congrArg (· >>= _) hr).trans (List.findSome?_eq_none_iff.mpr fun name hname => ?_)
      cases hk : keyword? name r with
      | none => rfl
      | some rest =>
        obtain ⟨u, hu, rfl⟩ := keyword?_iff.mp hk
        have hword : Spells ('<' :: name) ('<' :: u) := .cons (by decide) hu
        rw [eq_append_of_after? hr] at h
        refine absurd ?_ (h _ (List.mem_cons_of_mem _ (List.mem_map_of_mem hname)) _ hword)
        exact (List.prefix_append ('<' :: u) rest).isInfix
  rw [length?, hcomment, hempty, helement]
  rfl

/-- **A text hides nothing if no protected part can begin in it.** -/
theorem veil_of_unopened (h : Protected.IsUnopened t) : t.veil = t := by
  induction t with
  | nil => rfl
  | cons c r ih =>
    have hr := ih (h.of_infix (List.suffix_cons c r).isInfix)
    rw [Text.veil] at hr
    rw [Text.veil, veilFrom, h.length?_eq_none]
    exact congrArg (c :: ·) hr

end Unopened
end CiteMarkup
