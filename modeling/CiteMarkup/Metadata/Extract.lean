import CiteMarkup.Metadata.Address
import CiteMarkup.Metadata.Date
import CiteMarkup.Metadata.PlainText
import CiteMarkup.Template.Invocation
/-!
# Metadata of a reference

What the body of a reference says about its source: author, title, where and when it
appeared.  The first template in the body is read as a citation template; what it does not
say is looked for in the text.
-/

namespace CiteMarkup

/-! ## 1. Fields -/

/-- What is known about a source. -/
structure Metadata where
  last : Option Text := none
  first : Option Text := none
  author : Option Text := none
  title : Option Text := none
  work : Option Text := none
  publisher : Option Text := none
  domain : Option Text := none
  domainShort : Option Text := none
  /-- The first words of the plain text. -/
  phrase : Option Text := none
  year : Option Text := none
  /-- The year in ASCII digits, if it is written otherwise. -/
  yearAscii : Option Text := none
  /-- A year from anywhere in the body, if none is given as such. -/
  textYear : Option Text := none
  textYearAscii : Option Text := none
  dateCompact : Option Text := none
  dateDisplay : Option Text := none
  deriving DecidableEq, Repr

namespace Metadata

/-- The number of words that a phrase keeps. -/
def phraseWords : Nat := 6

/-- The plain text of a value, unless nothing is left of it. -/
def clean? (value : Option Text) : Option Text :=
  (value.bind Text.nonempty?).bind fun v => Text.nonempty? (plainText v)

/-- A title without the code of a language and a colon in front. -/
def withoutLanguage (title : Text) : Text :=
  let isCode (c : Char) : Bool := isAsciiLetter c || c = '-'
  match title.dropWhile isCode with
  | ':' :: r => if 2 ≤ (title.takeWhile isCode).length then r.dropWhile isBlank else title
  | _ => title

/-- The text before the first comma or semicolon, or the first `and` between spaces. -/
def firstAuthor : Text → Text
  | [] => []
  | c :: r =>
    if c = ',' || c = ';' || (keyword? " and ".toList (c :: r)).isSome then []
    else c :: firstAuthor r

/-- The value, or another one if it is missing or empty. -/
def orElse (value other : Option Text) : Option Text :=
  match value.bind Text.nonempty? with
  | some v => some v
  | none => other

/-! ## 2. Reading a body -/

/-- The citation template of a body: the first template with a name. -/
def citationOf? (body : Text) : Option Template :=
  ((Page.ofText body).templatesWhere (!·.isEmpty)).head?

/-- Authors and titles, from the parameters of a citation template. -/
def ofParams (pick : List String → Option Text) : Metadata :=
  { last := pick ["last", "last1", "surname", "author1"]
    first := pick ["first", "first1", "given"]
    author := pick ["author", "authors"]
    title :=
      clean? ((pick ["title", "script-title", "chapter", "contribution"]).map withoutLanguage)
    work := clean? (pick ["work", "journal", "newspaper", "website", "periodical"])
    publisher := clean? (pick ["publisher", "institution"]) }

/-- The metadata with the domain of an address. -/
def withAddress (m : Metadata) (rules : Address.Rules) (address : Option Text) : Metadata :=
  match address with
  | none => m
  | some a =>
    { m with domain := Address.domain? rules a, domainShort := Address.domainShort? rules a }

/-- The metadata with a date; a complete one is what `complete` reads. -/
def withDate (m : Metadata) (complete : Text → Option WrittenDate) (date : Option Text) :
    Metadata :=
  match date.bind fun d => Text.nonempty? (Text.asciiDigits (plainText d)) with
  | none => m
  | some d =>
    match WrittenDate.readBy? complete d with
    | none => m
    | some w => { m with dateCompact := some w.compact, dateDisplay := some w.display }

/-- The metadata with the year that is given, or else one from the body. -/
def withYear (m : Metadata) (given : Option Text) (body : Text) : Metadata :=
  match Year.find? (given.getD []) with
  | some y => { m with year := some y.written, yearAscii := y.converted? }
  | none =>
    match Year.find? body with
    | some y => { m with textYear := some y.written, textYearAscii := y.converted? }
    | none => m

/-- The metadata with the name of the first author, if no last name is given. -/
def withFirstAuthor (m : Metadata) : Metadata :=
  match m.last, m.author with
  | none, some a => { m with last := Text.nonempty? (Text.trim (firstAuthor (plainText a))) }
  | _, _ => m

/-- The metadata with the first words of the body. -/
def withPhrase (m : Metadata) (body : Text) : Metadata :=
  { m with phrase :=
        Text.nonempty? (Text.join [' '] ((Text.words (plainText body)).take phraseWords)) }

/-- The metadata with what goes without saying for a source of its kind. -/
def withSource (m : Metadata) (name label host : String) : Metadata :=
  { m with
    work := orElse m.work (some name.toList)
    publisher := orElse m.publisher (some name.toList)
    domain := orElse m.domain (some host.toList)
    domainShort := orElse m.domainShort (some label.toList) }

/-- The metadata with what the kind of citation template says. -/
def withKind (m : Metadata) (kind : Option Text) (user : Option Text) : Metadata :=
  if kind = some "cite tweet".toList then
    let named : Metadata := match clean? user with
      | some u => { m with author := orElse m.author (some u), last := orElse m.last (some u) }
      | none => m
    named.withSource "Twitter" "twitter" "twitter.com"
  else if kind = some "cite arxiv".toList then m.withSource "arXiv" "arxiv" "arxiv.com"
  else m

/-- What a citation template gives under the first of some keys that it has. -/
def given? (citation : Option Template) (keys : List String) : Option Text :=
  pickValue? ((citation.map (·.params)).getD []) (keys.map (·.toList))

/-- The address of a source: the one that is given, or else the first one in the body. -/
def addressOf? (citation : Option Template) (body : Text) : Option Text :=
  given? citation ["url", "archive-url"] <|> Address.find? body

/-- What a body says, whatever the kind of its citation template. -/
def gathered (rules : Address.Rules) (complete : Text → Option WrittenDate)
    (citation : Option Template) (body : Text) : Metadata :=
  let m := ofParams (given? citation)
  let m := m.withAddress rules (addressOf? citation body)
  let m := m.withDate complete (given? citation ["date"])
  let m := m.withYear (given? citation ["year", "date"]) body
  m.withFirstAuthor.withPhrase body

/-- What the body of a reference says about its source.  Addresses are read by the rules, and
complete dates are what `complete` reads. -/
def readBy (rules : Address.Rules) (complete : Text → Option WrittenDate) (body : Text) :
    Metadata :=
  let citation := citationOf? body
  (gathered rules complete citation body).withKind (citation.map (·.canonical))
    (given? citation ["user"])

/-- What the body of a reference says about its source. -/
def ofBody (rules : Address.Rules) (body : Text) : Metadata :=
  readBy rules WrittenDate.usual? body

end Metadata
end CiteMarkup
