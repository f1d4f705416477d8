import CiteMarkup.Tag.Reference
import CiteMarkup.Template.Invocation
/-!
# The citation marks of a page

Four kinds of mark make up the citations of a page: reference tags, chained citation
templates that cite several references by name, locators that give a page for the citation
before them, and output lists that hold definitions.  Marks inside an output list, and
templates inside the body of a tag, belong to what is around them.
-/

namespace CiteMarkup

/-! ## 1. Names of the templates -/

/-- The template that cites references by name, several in a row. -/
def chainName : Text := "r".toList

/-- The template that gives a place within the source just cited. -/
def locatorName : Text := "rp".toList

/-- The templates that print the references, unless others are named. -/
def defaultListNames : List Text := ["reflist".toList, "references".toList]

/-! ## 2. Tokens -/

/-- A citation mark. -/
inductive Token where
  | tag (t : RefTag)
  | chain (t : Template)
  | locator (t : Template)
  | list (t : Template)
  deriving DecidableEq, Repr

namespace Token

/-- The stretch of the page that the mark takes up. -/
def span : Token → Span
  | tag t => t.span
  | chain t | locator t | list t => t.span

/-- Where the mark begins. -/
def start (t : Token) : Nat := t.span.start

/-- A template that is named like a chain is one, the other templates found with it are
locators. -/
def ofTemplate (t : Template) : Token :=
  if t.canonical = canonicalName chainName then chain t else locator t

end Token

/-- The marks of a page in order, with the output lists of the given names. -/
def Page.tokens (p : Page) (listNames : List Text) : List Token :=
  let lists := p.templates listNames
  let inList (i : Nat) : Bool := lists.any (·.span.contains i)
  let tags := p.refTags.filter fun t => !inList t.span.start
  let inBody (i : Nat) : Bool := tags.any fun t => t.isFull && t.span.contains i
  let cites := (p.templates [chainName, locatorName]).filter fun t =>
    !inList t.span.start && !inBody t.span.start
  sortByStart Token.start (lists.map .list ++ tags.map .tag ++ cites.map Token.ofTemplate)

end CiteMarkup
