import CiteMarkup.Template.Invocation
/-!
# Bodies of references

A body that is moved or copied is tidied: no blanks at the ends of lines, no more than one
empty line in a row, nothing around it.  On request the citation templates in it are also
written anew, with the parameters that matter most in front.
-/

namespace CiteMarkup

/-! ## 1. Tidying -/

/-- Spaces and tabs lead to the end of a line. -/
def leadsToLineEnd (t : Text) : Bool := (t.dropWhile isGap).head? = some '\n'

/-- The text without spaces and tabs at the ends of lines. -/
def cleanLines : Text → Text
  | [] => []
  | c :: r => if isGap c && leadsToLineEnd r then cleanLines r else c :: cleanLines r

/-- The text with at most two line ends in a row, `n` of them having come before. -/
def limitLineEnds : (n : Nat) → Text → Text
  | _, [] => []
  | n, c :: r =>
    if c = '\n' then
      if n < 2 then c :: limitLineEnds (n + 1) r else limitLineEnds n r
    else c :: limitLineEnds 0 r

/-- The body, tidied. -/
def tidy (body : Text) : Text := Text.trim (limitLineEnds 0 (cleanLines body))

/-! ## 2. Citation templates -/

/-- The keys that go to the front of a citation template, in this order, each with the other
spellings of it. -/
def leadingKeys : List (List Text) :=
  [ ["title".toList], ["url".toList], ["website".toList], ["language".toList],
    ["dead-url".toList, "deadurl".toList], ["archive-url".toList], ["archive-date".toList],
    ["access-date".toList] ]

/-- The parameter is written with one of the keys. -/
def Param.hasOneOf (keys : List Text) (p : Param) : Bool :=
  p.isKeyed && keys.contains p.name.lower

/-- The parameters with the first of each kind of key in front. -/
def frontFirst : (kinds : List (List Text)) → List Param → List Param
  | [], params => params
  | keys :: kinds, params =>
    match params.find? (Param.hasOneOf keys) with
    | some p => p :: frontFirst kinds (params.eraseP (Param.hasOneOf keys))
    | none => frontFirst kinds params

/-- A parameter written out. -/
def Param.write (p : Param) : Text := if p.isKeyed then p.name ++ '=' :: p.value else p.value

/-- A citation template written anew. -/
def Template.writtenAnew (t : Template) : Text :=
  ['{', '{'] ++ t.name ++ " |".toList ++
    Text.join " |".toList ((frontFirst leadingKeys t.params).map Param.write) ++ ['}', '}']

/-- The name of a citation template. -/
def isCitationName (canonical : Text) : Bool := Text.startsWith canonical "cite ".toList

/-- The text with the template at a place of it written anew; one without parameters stays
as it is. -/
def renewIn (t : Template) (body : Text) : Text :=
  if t.params.isEmpty then body
  else body.take t.span.start ++ t.writtenAnew ++ body.drop t.span.stop

/-- The body, tidied, and its citation templates written anew.  They are taken from the last
to the first, so that the places of the others stay true. -/
def normalized (body : Text) : Text :=
  let t := tidy body
  ((Page.ofText t).templatesWhere isCitationName).foldr renewIn t

/-- The body as it is to be written: tidied, or with its citation templates written anew. -/
def cleaned (normalize : Bool) (body : Text) : Text :=
  if normalize then normalized body else tidy body

end CiteMarkup
