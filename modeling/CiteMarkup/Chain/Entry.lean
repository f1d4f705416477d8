import CiteMarkup.Template.Brackets
import CiteMarkup.Text.Blank
import CiteMarkup.Text.Keyword
/-!
# Entries of a chained citation

The parameters of a chained citation are names and what belongs to them: a group, a page,
a range of pages, another place, or something else.  An index at the end of a key says which
name a parameter belongs to.
-/

namespace CiteMarkup

/-! ## 1. Entries -/

/-- The role of a parameter. -/
inductive Role where
  | name
  | group
  | page
  | pages
  | place
  | other
  deriving DecidableEq, Repr

/-- A parameter of a chained citation.  `key` is as written, or none for a name without a
key; `index` counts names from 1 and says which one the parameter belongs to. -/
structure Entry where
  key : Option Text
  value : Text
  role : Role
  index : Nat
  deriving DecidableEq, Repr

/-- The parameter gives a name. -/
def Entry.isName (e : Entry) : Bool := e.role = .name

/-- An entry and the place of its value within the parameter text. -/
structure PlacedEntry extends Entry where
  span : Span
  deriving DecidableEq, Repr

/-! ## 2. Keys -/

/-- The index at the end of a key that consists of one of the words, in any case, and
digits; the digits may be missing. -/
def indexAfter? (words : List Text) (key : Text) : Option Text :=
  words.findSome? fun w => (asciiKeyword? w key).bind fun digits =>
    if digits.all isAsciiDigit then some digits else none

/-- The digits at the end of a text. -/
def trailingDigits (t : Text) : Text := (t.reverse.takeWhile isAsciiDigit).reverse

/-- The key of a name. -/
def nameWords : List Text := ["name".toList, "n".toList]

/-- The roles other than a name, each with the keys that stand for it. -/
def roleWords : List (Role × List Text) :=
  [ (.group, ["grp".toList, "group".toList, "g".toList]),
    (.page, ["page".toList, "p".toList]),
    (.pages, ["pages".toList, "pp".toList]),
    (.place, ["at".toList, "location".toList, "loc".toList]) ]

/-- What a key says: that the parameter is a name, with or without an index, that it has
another role, again with or without an index, or nothing that is known but an index. -/
inductive KeyMeaning where
  | name (index : Option Nat)
  | part (role : Role) (index : Option Nat)
  | unknown (index : Option Nat)
  deriving DecidableEq, Repr

/-- The number that digits stand for, unless there are none. -/
def indexOf (digits : Text) : Option Nat := (Text.nonempty? digits).map Text.toNat

/-- The meaning of a key.  An empty key, and a number alone, mean a name. -/
def KeyMeaning.of (key : Text) : KeyMeaning :=
  if key.all isAsciiDigit then .name (indexOf key)
  else match indexAfter? nameWords key with
    | some digits => .name (indexOf digits)
    | none =>
      match roleWords.findSome? fun (role, words) =>
          (indexAfter? words key).map fun digits => (role, digits) with
      | some (role, digits) => .part role (indexOf digits)
      | none => .unknown (indexOf (trailingDigits key))

/-! ## 3. Counting -/

/-- What has been counted: the highest position of a name so far, the index of the latest
name, and whether the first name has its group. -/
structure Tally where
  names : Nat := 0
  latest : Nat := 0
  firstGrouped : Bool := false
  deriving DecidableEq, Repr

/-- The role and the index of a parameter, and the tally after it.  A name without an index
takes the next free position.  A page or place without an index belongs to the first name.
A group does so too, unless that name has one: then it belongs to the latest name. -/
def Tally.count (s : Tally) : KeyMeaning → Role × Nat × Tally
  | .name (some i) => (.name, i, { s with latest := i })
  | .name none => (.name, s.names + 1, { s with names := s.names + 1, latest := s.names + 1 })
  | .part .group index =>
    let i := index.getD (if s.firstGrouped && 1 < s.latest then s.latest else 1)
    (.group, i, { s with firstGrouped := s.firstGrouped || i = 1 })
  | .part role index => (role, index.getD 1, s)
  | .unknown index => (.other, index.getD (max s.names 1), s)

/-- The tally after a parameter that is kept: a name takes its position. -/
def Tally.keep (s : Tally) (role : Role) (index : Nat) : Tally :=
  if role = .name then { s with names := max s.names index } else s

/-! ## 4. Reading -/

/-- Key and value of a segment, and where the value begins in it. -/
structure Assignment where
  key : Text
  value : Text
  offset : Nat

/-- The segment cut at its sign of equality. -/
def Assignment.ofSegment (segment : Text) : Assignment :=
  let lead := segment.leadingBlanks
  let body := segment.trim
  match equalsSign? body with
  | some e =>
    let rest : Text := body.drop (e + 1)
    ⟨Text.trim (body.take e), rest.trim, lead + e + 1 + rest.leadingBlanks⟩
  | none => ⟨[], body, lead⟩

/-- The entries in the segments from `offset` on.  A parameter without a value is dropped,
but a name without an index uses up a position all the same. -/
def entriesFrom : (offset : Nat) → Tally → (segments : List Text) → List PlacedEntry
  | _, _, [] => []
  | offset, s, segment :: rest =>
    let next := offset + segment.length + 1
    if segment.isBlankOnly then entriesFrom next s rest
    else
      let a := Assignment.ofSegment segment
      let (role, index, s') := s.count (KeyMeaning.of a.key)
      if a.value.isEmpty then entriesFrom next s' rest
      else
        { key := Text.nonempty? a.key, value := a.value, role := role, index := max index 1
          span := Span.ofLength (offset + a.offset) a.value.length }
          :: entriesFrom next (s'.keep role index) rest

/-- The entries of the parameter text of a chained citation; a bar in front of the text does
not belong to it. -/
def placedEntries (t : Text) : List PlacedEntry :=
  match t with
  | '|' :: r => if r.isEmpty then [] else entriesFrom 1 {} (cutApart (segmentLengths r) r)
  | _ => if t.isEmpty then [] else entriesFrom 0 {} (cutApart (segmentLengths t) t)

/-- The names that a chained citation cites. -/
def citedNames (t : Text) : List Text :=
  ((placedEntries t).filter fun e => e.toEntry.isName).map (·.value)

/-- The group of the name at `index`: the first that belongs to it. -/
def groupAt? (entries : List Entry) (index : Nat) : Option Text :=
  (entries.find? fun e => e.role = .group && e.index = index).map (·.value)

end CiteMarkup
