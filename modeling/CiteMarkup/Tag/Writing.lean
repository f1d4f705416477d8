import CiteMarkup.Tag.Body
import CiteMarkup.Chain.Writing
/-!
# Writing references

The forms in which a reference is written: a tag with its body, a tag that cites it, or a
chained citation of its name alone.
-/

namespace CiteMarkup

/-! ## 1. Tags -/

/-- A value between double quotes: those inside it are written as an entity. -/
def escapedAttribute (value : Text) : Text :=
  value.flatMap fun c => if c = '"' then "&quot;".toList else [c]

/-- The parts of an opening tag: name and group, as far as they are not empty. -/
def tagAttributes (name group : Option Text) : List Text :=
  [("name".toList, name), ("group".toList, group)].filterMap fun (key, value) =>
    (value.bind Text.nonempty?).map fun v => key ++ "=\"".toList ++ escapedAttribute v ++ ['"']

/-- An opening tag without its bracket. -/
def tagHead (name group : Option Text) : Text :=
  Text.join [' '] ("<ref".toList :: tagAttributes name group)

/-- The opening tag of a reference. -/
def openingTag (name group : Option Text) : Text := tagHead name group ++ ['>']

/-- A tag around a body that is written as given. -/
def tagAround (name group : Option Text) (body : Text) : Text :=
  openingTag name group ++ body ++ "</ref>".toList

/-- A tag with a cleaned body. -/
def fullTag (name group : Option Text) (body : Text) (normalize : Bool) : Text :=
  tagAround name group (cleaned normalize body)

/-! ## 2. Citations -/

/-- A chained citation of one name. -/
def singleChain (name : Text) (group : Option Text) : Text :=
  writeTemplate chainName
    (nameParam name 1 0 ::
      ((group.bind Text.nonempty?).map (assignment "group".toList)).toList)

/-- A citation of a reference: a chain if that is preferred and can hold name and group, a
tag otherwise. -/
def citation (name group : Option Text) (preferChain : Bool) : Text :=
  match name.bind Text.nonempty? with
  | none => "<ref />".toList
  | some n =>
    if preferChain && fitsChain n && fitsChain (group.getD []) then singleChain n group
    else tagHead name group ++ " />".toList

end CiteMarkup
