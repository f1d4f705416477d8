import CiteMarkup.Chain.Writing
import CiteMarkup.Template.Param
/-!
# Locators

A locator stands behind a citation and says where in the source to look: on a page, on
pages, or at another place.
-/

namespace CiteMarkup

/-! ## 1. Reading -/

/-- What a locator says.  `pagesKey` is the key that its range of pages is written with, and
`hasOther` tells that it holds something that is not understood. -/
structure Locator where
  page : Option Text := none
  pages : Option Text := none
  pagesKey : Text := "pp".toList
  place : Option Text := none
  group : Option Text := none
  hasOther : Bool := false
  deriving DecidableEq, Repr

/-- The locator with one more parameter; a later one takes the place of an earlier one. -/
def Locator.add (l : Locator) (p : Param) : Locator :=
  let key := if p.isKeyed then p.name.lower else []
  if key.isEmpty || key = "p".toList || key = "page".toList then
    { l with page := some p.value }
  else if key = "pp".toList || key = "pages".toList then
    { l with pages := some p.value, pagesKey := key }
  else if key = "at".toList || key = "loc".toList || key = "location".toList then
    { l with place := some p.value }
  else if key = "group".toList || key = "grp".toList || key = "g".toList then
    { l with group := some p.value }
  else { l with hasOther := true }

/-- The locator with the given parameter text. -/
def Locator.ofText (t : Text) : Locator := (Page.bare t).params.foldl Locator.add {}

/-! ## 2. Writing -/

/-- The key of an entry in a locator, if a locator can hold it. -/
def Entry.locatorKey? (e : Entry) : Option Text :=
  match e.role with
  | .page => some "p".toList
  | .pages =>
    some (if e.key.any fun k => Text.startsWith (Text.lower k) "pages".toList
      then "pages".toList else "pp".toList)
  | .place => some "at".toList
  | _ => none

/-- The entries of a role as parameters of a locator. -/
def locatorParams (entries : List Entry) (role : Role) : List Text :=
  (entries.filter (·.role = role)).filterMap fun e =>
    e.locatorKey?.map fun key => assignment key e.value

/-- The locator that holds the pages and places among the entries; nothing if there are
none. -/
def writeLocator (entries : List Entry) : Text :=
  let params := [Role.page, .pages, .place].flatMap (locatorParams entries)
  if params.isEmpty then [] else writeTemplate locatorName params

end CiteMarkup
