import CiteMarkup.Reference.Model
import CiteMarkup.Transform.Options
/-!
# Renaming, merging and deduplication

References get their new names all at once.  Those that then share an identity become one,
and references of one group with the same body can be made to point at the first of them.
-/

namespace CiteMarkup

/-! ## 1. Renaming -/

/-- A reference that has got another name, or lost its name. -/
structure RenameChange where
  old : Text
  new : Option Text
  deriving DecidableEq, Repr

/-- The entries of a renaming that can have an effect. -/
def effective (names : Renaming) : Renaming :=
  names.filter fun (k, v) => !k.isEmpty && v ≠ some k

/-- The entry for a named record: the one for its identity, or else for its bare name. -/
def newNameOf? (names : Renaming) (r : Record) : Option (Option Text) :=
  names.get? r.key <|> r.name.bind names.get?

namespace Record

/-- The record under another name. -/
def withName (r : Record) (name : Text) : Record :=
  { r with name := some name, key := identityOf name r.group }

/-- The record without a name, as the nameless reference with number `n`. -/
def withoutName (r : Record) (n : Nat) : Record :=
  { r with name := none, key := namelessIdentity n }

end Record

/-- A record after the first round, whether it was looked up among the nameless ones, and
the change. -/
structure Renamed where
  record : Record
  keyed : Bool
  change : Option RenameChange

/-- What becomes of a record in the first round: a named one by the renaming, a nameless one
by its identity.  `n` is the number of the next nameless reference. -/
def renameOne (names nameless : Renaming) (n : Nat) (r : Record) : Renamed × Nat :=
  match r.name with
  | some old =>
    match newNameOf? names r with
    | some none => (⟨r.withoutName n, false, some ⟨old, none⟩⟩, n + 1)
    | some (some new) =>
      if new.isEmpty || new = old then (⟨r, false, none⟩, n)
      else (⟨r.withName new, false, some ⟨old, some new⟩⟩, n)
    | none => (⟨r, false, none⟩, n)
  | none =>
    match nameless.get? r.key with
    | none => (⟨r, false, none⟩, n)
    | some new =>
      match new.bind Text.nonempty? with
      | some new => (⟨r.withName new, true, some ⟨r.key, some new⟩⟩, n)
      | none => (⟨r, true, none⟩, n)

/-- The first round over all records. -/
def renameAll (names nameless : Renaming) : (n : Nat) → List Record → List Renamed
  | _, [] => []
  | n, r :: rs =>
    let (x, n) := renameOne names nameless n r
    x :: renameAll names nameless n rs

/-- The values that no nameless record has taken by its identity. -/
def spareNames (nameless : Renaming) (records : List Record) : List (Option Text) :=
  (nameless.filter fun (k, _) => !records.any fun r => r.name.isNone && r.key == k).map (·.2)

/-- The second round: the spare names go one by one to the records without a name that were
not looked up. -/
def handOut : (names : List (Option Text)) → List Renamed → List (Record × Option RenameChange)
  | _, [] => []
  | [], x :: xs => (x.record, none) :: handOut [] xs
  | n :: ns, x :: xs =>
    if x.record.name.isSome || x.keyed then (x.record, none) :: handOut (n :: ns) xs
    else match n.bind Text.nonempty? with
      | some new => (x.record.withName new, some ⟨x.record.key, some new⟩) :: handOut ns xs
      | none => (x.record, none) :: handOut ns xs

/-- The model with new names, and the changes in the order in which they were made. -/
def Model.rename (m : Model) (names nameless : Renaming) : Model × List RenameChange :=
  let count := (m.records.filter (·.name.isNone)).length
  let first := renameAll (effective names) nameless count m.records
  let second := handOut (spareNames nameless m.records) first
  ({ m with records := second.map (·.1) },
    first.filterMap (·.change) ++ second.filterMap (·.2))

/-! ## 2. Merging -/

/-- The record with everything that another one holds. -/
def Record.absorb (r s : Record) : Record :=
  { r with
    uses := sortByStart Occurrence.start (r.uses ++ s.uses)
    definitions := sortByStart Occurrence.start (r.definitions ++ s.definitions)
    definitions_eq := by
      rw [filter_sortByStart, List.filter_append, r.definitions_eq, s.definitions_eq]
    listed := sortByStart Occurrence.start (r.listed ++ s.listed) }

/-- The records with one more, which joins the one with its key if there is one. -/
def mergeInto (records : List Record) (s : Record) : List Record :=
  if records.any (·.key == s.key) then
    records.map fun r => if r.key == s.key then r.absorb s else r
  else records ++ [s]

/-- The model with records of one identity made one; the first survives. -/
def Model.mergeIdentities (m : Model) : Model :=
  { m with records := m.records.foldl mergeInto [] }

/-! ## 3. Deduplication -/

/-- A reference that points at another one now. -/
structure DedupeChange where
  old : Text
  new : Text
  deriving DecidableEq, Repr

/-- What two references have in common if they are the same: the group, and the body up to
blanks. -/
abbrev Likeness := Option Text × Text

/-- The likeness of a reference.  One without a name or a body is like no other. -/
def Record.likeness? (r : Record) : Option Likeness :=
  match r.name with
  | none => none
  | some _ => r.content?.map fun c => (r.group, Text.squeeze c)

/-- The first of the records `before` that has the likeness. -/
def twin? (before : List (Record × Option Likeness)) (likeness : Option Likeness) :
    Option Record :=
  likeness.bind fun l => (before.find? fun (_, m) => m = some l).map (·.1)

/-- The records with each pointed at the first that is the same, and the changes; `before`
are the records that come before, with their likenesses. -/
def dedupeFrom (before : List (Record × Option Likeness)) :
    List Record → List (Record × Option DedupeChange)
  | [] => []
  | r :: rs =>
    let likeness := r.likeness?
    let result := match twin? before likeness with
      | some s =>
        ({ r with canonical := s.index }, some ⟨r.name.getD [], s.name.getD []⟩)
      | none => (r, none)
    result :: dedupeFrom (before ++ [(r, likeness)]) rs

/-- The model with references of the same body pointed at the first of them, and the
changes. -/
def Model.dedupe (m : Model) : Model × List DedupeChange :=
  let results := dedupeFrom [] m.records
  ({ m with records := results.map (·.1) }, results.filterMap (·.2))

end CiteMarkup
