import CiteMarkup.Text.Scan
import CiteMarkup.Text.Lower
import CiteMarkup.Text.Word
/-!
# Attributes of a tag

Attributes are read leniently from the text between the tag name and the bracket: a name
begins at a word boundary, a value may be quoted either way or stand bare, and the first
attribute of a name wins.
-/

namespace CiteMarkup

/-- Names and values of attributes in the order written, each name once. -/
abbrev Attributes := List (Text × Text)

namespace Attributes

/-! ## 1. Names and values -/

/-- A character that an attribute name can hold. -/
def isNameChar (c : Char) : Bool :=
  !(c = '"' || c = '\'' || c = '>' || c = '/' || c = '=' || c.toNat < 0x20 || isBlank c)

/-- A character that a bare value can hold. -/
def isBareChar (c : Char) : Bool :=
  !(c = '"' || c = '\'' || c = '<' || c = '>' || c.toNat = 0x60 || isBlank c)

/-- One of the two characters before and after a place belongs to a word, the other does
not. -/
def isBoundary (before : Option Char) (after : Char) : Bool :=
  before.any isWordChar != isWordChar after

/-- A value between two quotes `q`, and what is left behind it. -/
def quoted? (q : Char) (t : Text) : Option (Text × Text) :=
  match t with
  | c :: r => if c = q then Text.splitFirst? q r else none
  | [] => none

/-- A value, in quotes or bare, and what is left behind it. -/
def value (t : Text) : Text × Text :=
  match quoted? '"' t <|> quoted? '\'' t with
  | some found => found
  | none => (t.takeWhile isBareChar, t.dropWhile isBareChar)

/-- The value behind an attribute name: none without a sign of equality. -/
def assigned (t : Text) : Text × Text :=
  match t.dropWhile isBlank with
  | '=' :: r => value (r.dropWhile isBlank)
  | _ => ([], t)

/-! ## 2. Reading all of them -/

/-- The rule that finds an attribute with the blanks behind it. -/
def rule (before : Option Char) (t : Text) : Verdict (Text × Text) :=
  match t with
  | [] => .pass
  | c :: _ =>
    if isNameChar c && isBoundary before c then
      let name := t.takeWhile isNameChar
      let (value, rest) := assigned (t.dropWhile isNameChar)
      .found (t.length - (rest.dropWhile isBlank).length) (Text.lower name, Text.trim value)
    else .pass

/-- The pairs of a list whose names have not come before. -/
def firstOfEach : (seen : List Text) → List (Text × Text) → Attributes
  | _, [] => []
  | seen, (k, v) :: r =>
    if seen.contains k then firstOfEach seen r else (k, v) :: firstOfEach (k :: seen) r

/-- The attributes that a text holds. -/
def ofText (t : Text) : Attributes := firstOfEach [] ((scan rule t).map (·.value))

/-- The value of an attribute, unless it is empty. -/
def value? (a : Attributes) (name : Text) : Option Text :=
  (a.lookup name).bind Text.nonempty?

end Attributes
end CiteMarkup
