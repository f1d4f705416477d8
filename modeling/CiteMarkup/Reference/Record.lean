import CiteMarkup.Token
import CiteMarkup.Chain.Entry
/-!
# References and their occurrences

A reference is known by what the page says about it: every place where it is cited, and
every body it is given.  A tag with content in the running text does both at once.
-/

namespace CiteMarkup

/-! ## 1. Occurrences -/

/-- How an occurrence is written. -/
inductive Form where
  /-- A tag without content in the running text. -/
  | bare
  /-- A tag with content in the running text. -/
  | full (body : Text)
  /-- A tag with content in an output list; `ownGroup` is false if it has its group from
  the list. -/
  | listed (body : Text) (ownGroup : Bool)
  /-- A name of a chained citation: the number of the chain on the page, and of the name in
  the chain. -/
  | chained (chain ordinal : Nat)
  deriving DecidableEq, Repr

/-- One occurrence of a reference.  Name and group are as written there, none if empty. -/
structure Occurrence where
  span : Span
  form : Form
  name : Option Text
  group : Option Text
  deriving DecidableEq, Repr

namespace Occurrence

/-- The place where the occurrence begins. -/
def start (o : Occurrence) : Nat := o.span.start

/-- The body that the occurrence gives to the reference. -/
def body? (o : Occurrence) : Option Text :=
  match o.form with
  | .full b | .listed b _ => some b
  | .bare | .chained _ _ => none

/-- A body other than blanks. -/
def visibleBody? (o : Occurrence) : Option Text :=
  o.body?.bind fun b => if b.isBlankOnly then none else some b

/-- The occurrence stands in an output list. -/
def isListed (o : Occurrence) : Bool :=
  match o.form with
  | .listed _ _ => true
  | _ => false

/-- A tag with content in the running text. -/
def isFull (o : Occurrence) : Bool :=
  match o.form with
  | .full _ => true
  | _ => false

/-- A name of a chained citation. -/
def isChained (o : Occurrence) : Bool :=
  match o.form with
  | .chained _ _ => true
  | _ => false

end Occurrence

/-! ## 2. Identities -/

/-- The identity of a named reference: the name, with the group in front of it. -/
def identityOf (name : Text) (group : Option Text) : Text :=
  match group with
  | some g => if g.isEmpty then name else g ++ "::".toList ++ name
  | none => name

/-- The identity of a name that may be missing; a nameless reference has none of this
kind. -/
def identity? (name group : Option Text) : Option Text :=
  (name.bind Text.nonempty?).map (identityOf · group)

/-- The identity of the nameless reference with number `n`. -/
def namelessIdentity (n : Nat) : Text := "__nameless_".toList ++ Text.ofNat n

/-! ## 3. Records -/

/-- Where the body of a reference is to stand. -/
inductive Location where
  | inline
  | listDefined
  deriving DecidableEq, Repr

/-- All that is known about one reference.  `index` is its number on the page and
`canonical` the number of the reference it has been merged into, its own if it has not been
merged.  `uses` are the occurrences in the running text, `definitions` those of them that carry
a body, and `listed` those in output lists; `writtenName` is the name that they have on the
page. -/
structure Record where
  index : Nat
  key : Text
  name : Option Text
  group : Option Text
  uses : List Occurrence
  definitions : List Occurrence
  listed : List Occurrence
  canonical : Nat
  location : Location
  writtenName : Option Text
  /-- The definitions are the uses that are tags with content, in the same order. -/
  definitions_eq : definitions = uses.filter (·.isFull) := by rfl
  deriving DecidableEq, Repr

namespace Record

theorem mem_definitions_iff {r : Record} {o : Occurrence} :
    o ∈ r.definitions ↔ o ∈ r.uses ∧ o.isFull = true := by
  rw [r.definitions_eq, List.mem_filter]

/-- All occurrences in the order of the page. -/
def occurrences (r : Record) : List Occurrence :=
  sortByStart Occurrence.start (r.uses ++ r.listed)

/-- The body of the reference: the first that is more than blanks, in the order of the
page. -/
def content? (r : Record) : Option Text :=
  (sortByStart Occurrence.start (r.definitions ++ r.listed)).findSome? (·.visibleBody?)

/-- The uses that are tags. -/
def tagUses (r : Record) : List Occurrence := r.uses.filter fun o => !o.isChained

/-- The place of the first occurrence. -/
def firstStart? (r : Record) : Option Nat := r.occurrences.head?.map (·.start)

end Record
end CiteMarkup
