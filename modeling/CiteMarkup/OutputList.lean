import CiteMarkup.Order.Natural
import CiteMarkup.Tag.Writing
/-!
# Output lists

An output list prints the references of a group, and its parameter `refs` can hold
definitions.  The definitions are written anew, one to a line; whatever else the list holds
stays as it is.
-/

namespace CiteMarkup

/-! ## 1. Definitions -/

/-- A definition that is to stand in an output list. -/
structure ListEntry where
  name : Option Text
  group : Option Text
  body : Text
  deriving DecidableEq, Repr

/-- How definitions are written: sorted by name or as they come, with bodies tidied or
written anew. -/
structure ListStyle where
  sort : Bool := false
  normalize : Bool := false
  deriving DecidableEq, Repr

/-- The entries in natural order of their names. -/
def sortEntries (entries : List ListEntry) : List ListEntry :=
  sortByName (fun e => e.name.getD []) entries

/-- The entries in the order in which they are written. -/
def ListStyle.arrange (style : ListStyle) (entries : List ListEntry) : List ListEntry :=
  if style.sort then sortEntries entries else entries

/-- A definition written out; its group is that of the list. -/
def ListStyle.write (style : ListStyle) (e : ListEntry) : Text :=
  fullTag e.name none e.body style.normalize

/-- The value of the parameter that holds the definitions. -/
def ListStyle.value (style : ListStyle) (entries : List ListEntry) : Text :=
  '\n' :: Text.join ['\n'] ((style.arrange entries).map style.write) ++ ['\n']

/-! ## 2. Lists -/

/-- The parameter that holds the definitions of a list. -/
def Template.refs? (t : Template) : Option Param := t.param? "refs".toList

/-- The list without the last parameter `refs` and the bar in front of it. -/
def Template.withoutRefs (t : Template) (page : Text) (refs : Param) : Text :=
  page.slice t.span.start (t.paramsStart + refs.span.start - 1) ++
    page.slice (t.paramsStart + refs.span.stop) t.span.stop

/-- The list with a new value for its last parameter `refs`, whose sign of equality stands
`sign` characters into the parameter. -/
def Template.withRefs (t : Template) (page : Text) (refs : Param) (sign : Nat) (value : Text) :
    Text :=
  page.slice t.span.start (t.paramsStart + refs.span.start + sign + 1) ++ value ++
    page.slice (t.paramsStart + refs.span.stop) t.span.stop

/-- The offset of the sign of equality in a parameter. -/
def Template.signOf? (t : Template) (page : Text) (p : Param) : Option Nat :=
  Text.indexOf? ['='] (page.slice (t.paramsStart + p.span.start) (t.paramsStart + p.span.stop))

/-- The parameter `refs` as it is added to a list. -/
def refsParam (value : Text) : Text := "|refs=".toList ++ value ++ ['}', '}']

/-- A list of the page with the given definitions in the place of its own. -/
def Template.updated (t : Template) (page : Text) (style : ListStyle)
    (entries : List ListEntry) : Text :=
  match t.refs? with
  | none =>
    if entries.isEmpty then page.cut t.span
    else page.slice t.span.start (t.span.stop - 2) ++ refsParam (style.value entries)
  | some refs =>
    if entries.isEmpty then t.withoutRefs page refs
    else t.withRefs page refs ((t.signOf? page refs).getD 0) (style.value entries)

/-- A new list for a group, to stand at the end of a page. -/
def newList (group : Option Text) (style : ListStyle) (entries : List ListEntry) : Text :=
  let head := ['\n', '{', '{'] ++ "reflist".toList
  let grouped := match group.bind Text.nonempty? with
    | some g => head ++ "|group=".toList ++ g
    | none => head
  grouped ++ refsParam (style.value entries)

end CiteMarkup
