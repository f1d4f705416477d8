import CiteMarkup.Proofs.Transform.Identities
import CiteMarkup.Proofs.Transform.Renaming
/-!
# The names that renaming gives

A reference with a name gets its new one by its own identity and name, whatever becomes of the
others, and one without a name by its identity.  The values that are left over go in turn to the
references that then have no name and no entry of their own (`names_assigned`).
-/

namespace CiteMarkup

/-! ## 1. What is decided about a reference by itself -/

/-- The entry under a key that has an effect.  An empty key has none, and neither has a key that
stands for itself. -/
def Renaming.entry? (names : Renaming) (key : Text) : Option (Option Text) :=
  (names.find? fun e => e.1 = key ∧ key ≠ [] ∧ e.2 ≠ some key).map (·.2)

/-- The name for a reference with the identity `key` and the name `name`: the entry under the
identity says it, or else the one under the bare name.  An entry without a value strips the name,
one with an empty value has no effect. -/
def Renaming.nameFor (names : Renaming) (key name : Text) : Option Text :=
  match names.entry? key <|> names.entry? name with
  | none => some name
  | some none => none
  | some (some new) => some (if new = [] then name else new)

/-- What is decided about the name of a reference by itself. -/
inductive NameChoice where
  /-- It gets this name, or is to have none. -/
  | fixed (name : Option Text)
  /-- It takes what is left over. -/
  | leftOver
  deriving DecidableEq

namespace NameChoice

/-- The reference takes what is left over. -/
def isLeftOver : NameChoice → Bool
  | fixed _ => false
  | leftOver => true

/-- The name that is assigned if the value number `k` of those left over is the next. -/
def name? (spare : List (Option Text)) (k : Nat) : NameChoice → Option Text
  | fixed name => name
  | leftOver => spare[k]?.bind (·.bind Text.nonempty?)

end NameChoice

/-- What the two renamings decide about a reference. -/
def Record.choice (names nameless : Renaming) (r : Record) : NameChoice :=
  match r.name with
  | some name =>
    match names.nameFor r.key name with
    | some new => .fixed (some new)
    | none => .leftOver
  | none =>
    match nameless.get? r.key with
    | some value => .fixed (value.bind Text.nonempty?)
    | none => .leftOver

/-- What a record comes out of the first round with. -/
def Renamed.choice (x : Renamed) : NameChoice :=
  if x.record.name.isSome || x.keyed then .fixed x.record.name else .leftOver

/-! ## 2. The first round -/

section First

variable {names nameless : Renaming}

theorem get?_effective (names : Renaming) (key : Text) :
    (effective names).get? key = names.entry? key := by
  unfold effective Renaming.entry? Dictionary.get?
  induction names with
  | nil => rfl
  | cons e names ih =>
    obtain ⟨k, v⟩ := e
    by_cases hkey : key = k
    · subst hkey
      by_cases hkeeps : key ≠ [] ∧ v ≠ some key
      · simp [hkeeps]
      · rw [List.filter_cons_of_neg (by simpa using hkeeps), ih,
          List.find?_cons_of_neg (by simpa using hkeeps)]
    · have hother : (key == k) = false := by simpa using hkey
      rw [List.find?_cons_of_neg (by simp [Ne.symm hkey]), ← ih]
      by_cases hkeeps : k ≠ [] ∧ v ≠ some k
      · rw [List.filter_cons_of_pos (by simpa using hkeeps), List.lookup_cons, hother]
      · rw [List.filter_cons_of_neg (by simpa using hkeeps)]

/-- The first round decides about each reference by itself. -/
theorem choice_renameOne (n : Nat) (r : Record) :
    (renameOne (effective names) nameless n r).1.choice = r.choice names nameless := by
  unfold renameOne Record.choice
  cases hname : r.name with
  | some name =>
    simp only [newNameOf?, hname, Option.bind_some, get?_effective, Renaming.nameFor]
    cases hentry : names.entry? r.key <|> names.entry? name with
    | none => simp [Renamed.choice, hname]
    | some entry =>
      cases entry with
      | none => rfl
      | some new =>
        by_cases hnew : new = []
        · simp [Renamed.choice, hname, hnew]
        · by_cases hold : new = name
          · simp [Renamed.choice, hname, hold]
          · simp [Renamed.choice, Record.withName, hnew, hold]
  | none =>
    simp only []
    cases hentry : nameless.get? r.key with
    | none => simp [Renamed.choice, hname]
    | some value =>
      simp only []
      cases hvalue : value.bind Text.nonempty? with
      | none => simp [Renamed.choice, hname]
      | some new => simp [Renamed.choice, Record.withName]

theorem choices_renameAll : ∀ (records : List Record) (n : Nat),
    (renameAll (effective names) nameless n records).map (·.choice) =
      records.map (·.choice names nameless)
  | [], n => rfl
  | r :: rs, n => by
    simp only [renameAll, List.map_cons, choice_renameOne, choices_renameAll rs]

end First

/-! ## 3. The second round -/

/-- The name of the record that comes out of the second round, if it was chosen by itself. -/
theorem Renamed.choice_cases (x : Renamed) :
    (x.choice = .fixed x.record.name ∧ (x.record.name.isSome || x.keyed) = true) ∨
      x.choice = .leftOver ∧ x.record.name = none ∧
        (x.record.name.isSome || x.keyed) = false := by
  unfold choice
  cases hname : x.record.name with
  | some name => exact .inl ⟨rfl, rfl⟩
  | none =>
    cases hkeyed : x.keyed with
    | true => exact .inl ⟨rfl, rfl⟩
    | false => exact .inr ⟨rfl, rfl, rfl⟩

/-- **The second round hands out what is left over.**  The reference at place `i` gets the value
whose number is that of the references in front of it that get one. -/
theorem name_handOut : ∀ (xs : List Renamed) (spare : List (Option Text)) (i : Nat),
    ((handOut spare xs)[i]?).map (·.1.name) = (xs[i]?).map fun x =>
      x.choice.name? spare ((xs.take i).countP (·.choice.isLeftOver))
  | [], spare, i => by cases spare <;> rfl
  | x :: xs, [], i => by
    have hnone : ∀ (y : Renamed) (k : Nat), y.choice.name? [] k = y.record.name := by
      intro y k
      rcases y.choice_cases with ⟨hy, -⟩ | ⟨hy, hname, -⟩
      · rw [hy]
        rfl
      · rw [hy, hname]
        rfl
    simp only [handOut_nil, hnone, List.getElem?_map, Option.map_map, Function.comp_def]
  | x :: xs, s :: spare, i => by
    rw [handOut]
    rcases x.choice_cases with ⟨hx, hsettled⟩ | ⟨hx, hname, hopen⟩
    · -- the record is passed over, and the next one finds the same value
      rw [if_pos hsettled]
      cases i with
      | zero => simp [hx, NameChoice.name?]
      | succ i => simpa [hx, NameChoice.isLeftOver] using name_handOut xs (s :: spare) i
    · -- the record takes the value, if it is a name
      rw [hopen, if_neg Bool.false_ne_true]
      cases i with
      | zero =>
        cases hs : s.bind Text.nonempty? with
        | none => simp [hx, hs, hname, NameChoice.name?]
        | some new => simp [hx, hs, Record.withName, NameChoice.name?]
      | succ i =>
        have hnext : ∀ c : NameChoice, ∀ k,
            c.name? (s :: spare) (k + 1) = c.name? spare k := by
          intro c k
          cases c <;> rfl
        cases hs : s.bind Text.nonempty? <;>
          simpa [hx, hnext, NameChoice.isLeftOver] using name_handOut xs spare i

/-! ## 4. Renaming -/

/-- The reference has no name or is to lose it, and no entry gives it one: a value that is left
over may. -/
def Record.takesLeftOver (names nameless : Renaming) (r : Record) : Bool :=
  match r.name with
  | some name => (names.nameFor r.key name).isNone
  | none => (nameless.get? r.key).isNone

section Rename

variable (m : Model) (names nameless : Renaming)

theorem Record.isLeftOver_choice (r : Record) :
    (r.choice names nameless).isLeftOver = r.takesLeftOver names nameless := by
  unfold choice takesLeftOver
  cases r.name with
  | some name => cases hnew : names.nameFor r.key name <;> simp [hnew, NameChoice.isLeftOver]
  | none => cases nameless.get? r.key <;> simp [NameChoice.isLeftOver]

theorem name_rename (i : Nat) :
    ((m.rename names nameless).1.records[i]?).map (·.name) = (m.records[i]?).map fun r =>
      (r.choice names nameless).name? (spareNames nameless m.records)
        ((m.records.take i).countP (·.takesLeftOver names nameless)) := by
  let spare := spareNames nameless m.records
  let xs := renameAll (effective names) nameless (m.records.filter (·.name.isNone)).length m.records
  have hchoices : xs.map (·.choice) = m.records.map (·.choice names nameless) :=
    choices_renameAll _ _
  -- both sides depend on the choices alone
  have hmap : ∀ {α : Type} (l : List α) (f : α → NameChoice),
      ((l.map f)[i]?).map (fun c => c.name? spare (((l.map f).take i).countP (·.isLeftOver))) =
        (l[i]?).map fun x => (f x).name? spare ((l.take i).countP fun x => (f x).isLeftOver) := by
    intro α l f
    rw [List.getElem?_map, Option.map_map, ← List.map_take, List.countP_map]
    rfl
  have hcount : ((m.records.take i).countP fun r => (r.choice names nameless).isLeftOver) =
      (m.records.take i).countP (·.takesLeftOver names nameless) :=
    congrArg (List.countP · _) (funext fun r => r.isLeftOver_choice names nameless)
  calc ((m.rename names nameless).1.records[i]?).map (·.name)
      = ((handOut spare xs)[i]?).map (·.1.name) := by
        rw [Model.rename, List.getElem?_map, Option.map_map]
        rfl
    _ = (xs[i]?).map fun x => x.choice.name? spare ((xs.take i).countP (·.choice.isLeftOver)) :=
        name_handOut xs spare i
    _ = (m.records[i]?).map fun r => (r.choice names nameless).name? spare
          ((m.records.take i).countP fun r => (r.choice names nameless).isLeftOver) := by
        rw [← hmap xs, hchoices, hmap m.records]
    _ = _ := by rw [hcount]

end Rename

/-- The names of the records of `m` have been assigned by the two renamings. -/
structure Model.NamesAssigned (m : Model) (names nameless : Renaming) (renamed : List Record) :
    Prop where
  /-- The records are those of the model, but for their names and keys. -/
  unnamed : renamed.map Record.unnamed = m.records.map Record.unnamed
  /-- A reference with a name gets the name that its identity and its name are given, -/
  named : ∀ (i : Nat) (r r' : Record) (name new : Text), m.records[i]? = some r →
    renamed[i]? = some r' → r.name = some name → names.nameFor r.key name = some new →
      r'.name = some new
  /-- and one without a name the value of its identity, if that is a name. -/
  keyed : ∀ (i : Nat) (r r' : Record) (value : Option Text), m.records[i]? = some r →
    renamed[i]? = some r' → r.name = none → nameless.get? r.key = some value →
      r'.name = value.bind Text.nonempty?
  /-- The values that are left over go in turn to those that neither decides about. -/
  leftOver : ∀ (i : Nat) (r r' : Record), m.records[i]? = some r → renamed[i]? = some r' →
    r.takesLeftOver names nameless = true →
      r'.name = ((spareNames nameless m.records)[
        (m.records.take i).countP (·.takesLeftOver names nameless)]?).bind
          (·.bind Text.nonempty?)

/-- **Renaming assigns all names at once.** -/
theorem names_assigned (m : Model) (names nameless : Renaming) :
    m.NamesAssigned names nameless (m.rename names nameless).1.records := by
  have hname : ∀ {i : Nat} {r r' : Record}, m.records[i]? = some r →
      (m.rename names nameless).1.records[i]? = some r' →
        r'.name = (r.choice names nameless).name? (spareNames nameless m.records)
          ((m.records.take i).countP (·.takesLeftOver names nameless)) := by
    intro i r r' hr hr'
    have h := name_rename m names nameless i
    rw [hr, hr'] at h
    exact Option.some.inj h
  refine ⟨rename_unnamed m names nameless, ?_, ?_, ?_⟩
  · intro i r r' name new hr hr' hold hnew
    rw [hname hr hr', Record.choice, hold]
    simp only [hnew]
    rfl
  · intro i r r' value hr hr' hnone hvalue
    rw [hname hr hr', Record.choice, hnone]
    simp only [hvalue]
    rfl
  · intro i r r' hr hr' htakes
    rw [hname hr hr']
    rw [← Record.isLeftOver_choice] at htakes
    cases hchoice : r.choice names nameless with
    | fixed name => rw [hchoice] at htakes; cases htakes
    | leftOver => rfl

/-- A reference that loses its name gets one that is left over. -/
theorem stripped_named_again :
    let m := Model.ofText "<ref name=\"a\">b</ref>".toList defaultListNames
    let names : Renaming := [("a".toList, none)]
    let nameless : Renaming := [("z".toList, some "n".toList)]
    ∃ r ∈ m.records, ∃ r' ∈ (m.rename names nameless).1.records, r.name = some "a".toList ∧
      r'.index = r.index ∧ names.nameFor r.key "a".toList = none ∧
        r'.name = some "n".toList := by
  decide +kernel

end CiteMarkup
