import CiteMarkup.Proofs.Template.Hidden
import CiteMarkup.Proofs.Template.Offsets
import CiteMarkup.Tag.Body
/-!
# Parameters put in front

`frontFirst` takes the first parameter of each kind out of the list and puts it in front.  Nothing
is lost (`frontFirst_perm`), parameters without a key keep their order (`filter_frontFirst`), and
what is in front stays there (`frontFirst_frontFirst`).  It asks for keys only, so a list with the
same keys is put in the same order (`forall₂_frontFirst`).
-/

namespace CiteMarkup

variable {kinds : List (List Text)} {keys : List Text} {l l' : List Param} {q q' : Param}

/-! ## 1. The order -/

/-- What a step does: the first parameter with one of the keys comes in front, or there is none. -/
theorem frontFirst_cases (keys : List Text) (kinds : List (List Text)) (l : List Param) :
    (∃ before behind q, l = before ++ q :: behind ∧ q.hasOneOf keys = true ∧
        frontFirst (keys :: kinds) l = q :: frontFirst kinds (before ++ behind)) ∨
      (∀ q ∈ l, q.hasOneOf keys = false) ∧
        frontFirst (keys :: kinds) l = frontFirst kinds l := by
  cases hfind : l.find? (Param.hasOneOf keys) with
  | none =>
    refine .inr ⟨fun q hq => ?_, by rw [frontFirst, hfind]⟩
    exact Bool.eq_false_iff.mpr (List.find?_eq_none.mp hfind q hq)
  | some q =>
    obtain ⟨hq, before, behind, rfl, hbefore⟩ := List.find?_eq_some_iff_append.mp hfind
    have herase : (before ++ q :: behind).eraseP (Param.hasOneOf keys) = before ++ behind := by
      rw [List.eraseP_append_right _ (by simpa using hbefore), List.eraseP_cons_of_pos hq]
    exact .inl ⟨before, behind, q, rfl, hq, by rw [frontFirst, hfind, herase]⟩

/-- **No parameter is lost.** -/
theorem frontFirst_perm (kinds : List (List Text)) (l : List Param) :
    (frontFirst kinds l).Perm l := by
  induction kinds generalizing l with
  | nil => exact .refl l
  | cons keys kinds ih =>
    rcases frontFirst_cases keys kinds l with ⟨before, behind, q, rfl, -, heq⟩ | ⟨-, heq⟩
    · rw [heq]
      exact ((ih _).cons q).trans List.perm_middle.symm
    · rw [heq]
      exact ih l

theorem frontFirst_eq_nil_iff {kinds : List (List Text)} {l : List Param} :
    frontFirst kinds l = [] ↔ l = [] := by
  rw [← List.length_eq_zero_iff, ← List.length_eq_zero_iff, (frontFirst_perm kinds l).length_eq]

/-- **Parameters without a key keep their order.** -/
theorem filter_frontFirst (kinds : List (List Text)) (l : List Param) :
    (frontFirst kinds l).filter (!·.isKeyed) = l.filter (!·.isKeyed) := by
  induction kinds generalizing l with
  | nil => rfl
  | cons keys kinds ih =>
    rcases frontFirst_cases keys kinds l with ⟨before, behind, q, rfl, hq, heq⟩ | ⟨-, heq⟩
    · have hkeyed : q.isKeyed = true := (Bool.and_eq_true_iff.mp hq).1
      rw [heq, List.filter_cons_of_neg (by simp [hkeyed]), ih, List.filter_append,
        List.filter_append, List.filter_cons_of_neg (by simp [hkeyed])]
    · rw [heq, ih]

/-- **What is in front stays there.** -/
theorem frontFirst_frontFirst (kinds : List (List Text)) (l : List Param) :
    frontFirst kinds (frontFirst kinds l) = frontFirst kinds l := by
  induction kinds generalizing l with
  | nil => rfl
  | cons keys kinds ih =>
    rcases frontFirst_cases keys kinds l with ⟨before, behind, q, rfl, hq, heq⟩ | ⟨hnone, heq⟩
    · have hfind :
          (q :: frontFirst kinds (before ++ behind)).find? (Param.hasOneOf keys) = some q :=
        List.find?_cons_of_pos hq
      rw [heq, frontFirst, hfind]
      simp only [List.eraseP_cons_of_pos hq, ih]
    · rcases frontFirst_cases keys kinds (frontFirst kinds l) with
        ⟨before, behind, q, hl, hq, -⟩ | ⟨-, hagain⟩
      · -- nothing has come that was not there
        have hmem : q ∈ l := (frontFirst_perm kinds l).subset (hl ▸ by simp)
        rw [hnone q hmem] at hq
        cases hq
      · rw [heq, hagain, ih]

/-- The first of a kind is taken out of two lists alike. -/
theorem forall₂_eraseP {R : Param → Param → Prop} {P : Param → Bool} (h : List.Forall₂ R l l')
    (hP : ∀ q q', R q q' → P q = P q') :
    l.find? P = none ∧ l'.find? P = none ∨ ∃ q q', l.find? P = some q ∧ l'.find? P = some q' ∧
      R q q' ∧ List.Forall₂ R (l.eraseP P) (l'.eraseP P) := by
  induction h with
  | nil => exact .inl ⟨rfl, rfl⟩
  | @cons a a' l l' ha h ih =>
    cases hp : P a with
    | true =>
      have hp' : P a' = true := (hP a a' ha).symm.trans hp
      exact .inr ⟨a, a', List.find?_cons_of_pos hp, List.find?_cons_of_pos hp', ha, by
        rwa [List.eraseP_cons_of_pos hp, List.eraseP_cons_of_pos hp']⟩
    | false =>
      have hp' : P a' = false := (hP a a' ha).symm.trans hp
      rw [List.find?_cons_of_neg (by simp [hp]), List.find?_cons_of_neg (by simp [hp']),
        List.eraseP_cons_of_neg (by simp [hp]), List.eraseP_cons_of_neg (by simp [hp'])]
      rcases ih with hnone | ⟨q, q', hq, hq', hR, hrest⟩
      · exact .inl hnone
      · exact .inr ⟨q, q', hq, hq', hR, .cons ha hrest⟩

/-- **Lists with the same keys are put in the same order.** -/
theorem forall₂_frontFirst {R : Param → Param → Prop} (h : List.Forall₂ R l l')
    (hkeys : ∀ keys ∈ kinds, ∀ q q', R q q' → q.hasOneOf keys = q'.hasOneOf keys) :
    List.Forall₂ R (frontFirst kinds l) (frontFirst kinds l') := by
  induction kinds generalizing l l' with
  | nil => exact h
  | cons keys kinds ih =>
    have hrest := fun k hk => hkeys k (List.mem_cons_of_mem keys hk)
    rw [frontFirst, frontFirst]
    rcases forall₂_eraseP h (hkeys keys List.mem_cons_self) with
      ⟨hnone, hnone'⟩ | ⟨q, q', hq, hq', hR, herase⟩
    · rw [hnone, hnone']
      exact ih h hrest
    · rw [hq, hq']
      exact .cons hR (ih herase hrest)

/-! ## 2. What a parameter says -/

namespace Param

/-- The key of a parameter, if it is written with one, and its value. -/
def given (q : Param) : Option Text × Text := (if q.isKeyed then some q.name else none, q.value)

/-- How a key and a value are written. -/
def writeGiven : Option Text × Text → Text
  | (some key, value) => key ++ '=' :: value
  | (none, value) => value

theorem label_of_isKeyed (h : q.isKeyed = true) : q.label = .key q.name := by
  rw [isKeyed] at h
  rw [name]
  cases hl : q.label with
  | key name => rfl
  | position n =>
    rw [hl] at h
    cases h

/-- A parameter is written as what it says. -/
theorem write_eq (q : Param) : q.write = writeGiven q.given := by
  rw [write, given]
  cases q.isKeyed <;> rfl

theorem isKeyed_of_given (h : q.given = q'.given) : q.isKeyed = q'.isKeyed := by
  have hkey := congrArg (·.1.isSome) h
  unfold given at hkey
  cases hq : q.isKeyed <;> cases hq' : q'.isKeyed <;> simp_all

theorem name_of_given (h : q.given = q'.given) (hk : q.isKeyed = true) : q.name = q'.name := by
  have hk' : q'.isKeyed = true := (isKeyed_of_given h).symm.trans hk
  have hkey := congrArg Prod.fst h
  simpa [given, hk, hk'] using hkey

theorem hasOneOf_of_given (h : q.given = q'.given) (keys : List Text) :
    q.hasOneOf keys = q'.hasOneOf keys := by
  rw [hasOneOf, hasOneOf, ← isKeyed_of_given h]
  cases hk : q.isKeyed with
  | false => rfl
  | true => rw [name_of_given h hk]

/-- A key that can be asked for: nothing in it is hidden, or looks so. -/
def IsPlainKey (key : Text) : Prop := IsOpen key ∧ veil ∉ key

instance (key : Text) : Decidable (IsPlainKey key) := inferInstanceAs (Decidable (_ ∧ _))

theorem isOwnLower_veil : IsOwnLower veil := by
  have hnone : CodeTable.image? lowerTable veil = none := by
    simp only [lowerTable, CodeTable.stretches, CodeTable.rows, List.flatMap_cons, List.flatMap_nil,
      CodeTable.lineRows]
    -- a line is decoded very slowly by evaluation, so it is made a list of characters first
    repeat rw [String.toList_ofList]
    decide +kernel
  refine ⟨by decide, by decide, ?_⟩
  rw [lowerChar, hnone]
  decide

/-- A parameter and what is seen of it have the same of the keys that are asked for. -/
theorem Alike.hasOneOf_eq (h : q.Alike q') (hkeys : ∀ key ∈ keys, IsPlainKey key) :
    q.hasOneOf keys = q'.hasOneOf keys := by
  rw [hasOneOf, hasOneOf, ← h.isKeyed]
  cases hk : q.isKeyed with
  | false => rfl
  | true =>
    -- where something is hidden, a bracket stands in the one name and the veil in the other
    rcases (h.name hk).eq_or_mem with ⟨heq, -⟩ | ⟨⟨c, hc, hmem⟩, hveil⟩
    · rw [heq]
    · have hno : keys.contains q.name.lower = false := by
        rw [List.contains_eq_mem, decide_eq_false_iff_not]
        intro hkey
        exact (hkeys _ hkey).1.not_edge hc (mem_lower hc hmem)
      have hno' : keys.contains q'.name.lower = false := by
        rw [List.contains_eq_mem, decide_eq_false_iff_not]
        intro hkey
        exact (hkeys _ hkey).2 (mem_lowerFrom isOwnLower_veil hveil [])
      rw [hno, hno']

end Param

/-- The keys that go to the front are asked for as they are. -/
theorem isPlainKey_of_mem_leadingKeys :
    ∀ keys ∈ leadingKeys, ∀ key ∈ keys, Param.IsPlainKey key := by
  decide

/-- **A template and what is seen of it are put in the same order.** -/
theorem alike_frontFirst (h : List.Forall₂ Param.Alike l l') :
    List.Forall₂ Param.Alike (frontFirst leadingKeys l) (frontFirst leadingKeys l') :=
  forall₂_frontFirst h fun keys hkeys _ _ hq =>
    hq.hasOneOf_eq (isPlainKey_of_mem_leadingKeys keys hkeys)

/-- Parameters that say the same are put in the same order. -/
theorem map_given_frontFirst (h : l.map Param.given = l'.map Param.given)
    (kinds : List (List Text)) :
    (frontFirst kinds l).map Param.given = (frontFirst kinds l').map Param.given := by
  have heq : ∀ {m m' : List Param}, m.map Param.given = m'.map Param.given ↔
      List.Forall₂ (fun q q' => q.given = q'.given) m m' := by
    intro m m'
    rw [← List.forall₂_eq_eq_eq, List.forall₂_map_left_iff, List.forall₂_map_right_iff]
  exact heq.mpr (forall₂_frontFirst (heq.mp h) fun keys _ _ _ hq => Param.hasOneOf_of_given hq keys)

theorem map_write_eq (l : List Param) :
    l.map Param.write = (l.map Param.given).map Param.writeGiven := by
  rw [List.map_map]
  exact List.map_congr_left fun q _ => q.write_eq

/-- **What is in front stays there** in a list that says the same. -/
theorem map_write_frontFirst (h : l'.map Param.given = (frontFirst kinds l).map Param.given) :
    (frontFirst kinds l').map Param.write = (frontFirst kinds l).map Param.write := by
  rw [map_write_eq, map_write_eq, map_given_frontFirst h, frontFirst_frontFirst]

/-! ## 3. Numbers -/

/-- What a parameter is called, and its value. -/
def Param.said (q : Param) : Label × Text := (q.label, q.value)

/-- The parameters without a key are counted from a number on. -/
def AreNumbered (n : Nat) (l : List Param) : Prop :=
  (l.filter (!·.isKeyed)).map (·.label) =
    (List.range' n (l.filter (!·.isKeyed)).length).map Label.position

theorem areNumbered_params (p : Page) : AreNumbered 1 p.params := p.labels_params

/-- Counting is not disturbed by what is put in front. -/
theorem AreNumbered.frontFirst {n : Nat} (h : AreNumbered n l) (kinds : List (List Text)) :
    AreNumbered n (frontFirst kinds l) := by
  rw [AreNumbered, filter_frontFirst]
  exact h

/-- **Counted parameters that say the same are called the same.** -/
theorem map_said_of_given {n : Nat} (h : l.map Param.given = l'.map Param.given)
    (hl : AreNumbered n l) (hl' : AreNumbered n l') : l.map Param.said = l'.map Param.said := by
  induction l generalizing l' n with
  | nil =>
    obtain rfl : l' = [] := by simpa using h.symm
    rfl
  | cons q l ih =>
    cases l' with
    | nil => cases h
    | cons q' l' =>
      rw [List.map_cons, List.map_cons] at h
      obtain ⟨hq, hrest⟩ := List.cons.inj h
      have hkeyed := Param.isKeyed_of_given hq
      have hvalue : q.value = q'.value := congrArg Prod.snd hq
      unfold AreNumbered at hl hl'
      cases hk : q.isKeyed with
      | true =>
        have hk' : q'.isKeyed = true := hkeyed.symm.trans hk
        rw [List.filter_cons_of_neg (by simp [hk])] at hl
        rw [List.filter_cons_of_neg (by simp [hk'])] at hl'
        have hlabel : q.label = q'.label := by
          rw [Param.label_of_isKeyed hk, Param.label_of_isKeyed hk', Param.name_of_given hq hk]
        rw [List.map_cons, List.map_cons, ih hrest hl hl', Param.said, Param.said, hlabel, hvalue]
      | false =>
        have hk' : q'.isKeyed = false := hkeyed.symm.trans hk
        rw [List.filter_cons_of_pos (by simp [hk]), List.map_cons,
          List.length_cons, List.range'_succ,
          List.map_cons] at hl
        rw [List.filter_cons_of_pos (by simp [hk']), List.map_cons,
          List.length_cons, List.range'_succ,
          List.map_cons] at hl'
        obtain ⟨hlabel, hl⟩ := List.cons.inj hl
        obtain ⟨hlabel', hl'⟩ := List.cons.inj hl'
        rw [List.map_cons, List.map_cons, ih hrest hl hl', Param.said, Param.said, hlabel, hlabel',
          hvalue]

end CiteMarkup
