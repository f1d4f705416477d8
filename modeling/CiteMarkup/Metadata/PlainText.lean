import CiteMarkup.Text.Keyword
import CiteMarkup.Text.Scan
/-!
# Plain text of a markup

The text that a reader sees: without comments, references, tags and templates, with the text
of links.  The kinds of markup are taken away one after the other, so that what one step
leaves the next one reads.
-/

namespace CiteMarkup
namespace PlainText

/-! ## 1. Tags -/

/-- A place where `part` ends a stretch. -/
def ending (part : String) (t : Text) : Option Text := after? part.toList t

/-- What is left behind a comment. -/
def comment? (t : Text) : Option Text := do
  let r ← after? "<!--".toList t
  let (_, rest) ← until? (ending "-->") r
  return rest

/-- What is left behind a reference with its body. -/
def reference? (t : Text) : Option Text := do
  let r ← keyword? "<ref".toList t
  match r.dropWhile (· ≠ '>') with
  | _ :: inside =>
    let (_, rest) ← until? (keyword? "</ref>".toList) inside
    return rest
  | [] => none

/-- What is left behind a tag. -/
def tag? (t : Text) : Option Text :=
  match t with
  | '<' :: c :: r =>
    if c = '>' then none
    else match r.dropWhile (· ≠ '>') with
      | _ :: rest => some rest
      | [] => none
  | _ => none

/-! ## 2. Templates -/

/-- A character other than a brace. -/
def isNoBrace (c : Char) : Bool := c ≠ '{' && c ≠ '}'

/-- A character of the name of a language template behind its first letters. -/
def isLangChar (c : Char) : Bool :=
  c = '-' || c = '_' || isAsciiLetter c || isLetter 'i' c || isLetter 's' c || isLetter 'k' c

/-- The text that a language template shows, and what is left behind it. -/
def language? (t : Text) : Option (Text × Text) := do
  let r ← after? ['{', '{'] t
  let r ← keyword? "lang".toList (r.dropWhile isBlank)
  let r ← after? ['|'] ((r.dropWhile isLangChar).dropWhile isBlank)
  let r ← after? ['|'] (r.dropWhile fun c => c ≠ '|' && c ≠ '}')
  let rest ← after? ['}', '}'] (r.dropWhile isNoBrace)
  return (r.takeWhile isNoBrace, rest)

/-- What is left behind a template that holds no other one. -/
def template? (t : Text) : Option Text := do
  let r ← after? ['{', '{'] t
  after? ['}', '}'] (r.dropWhile isNoBrace)

/-! ## 3. Links -/

/-- A character of an address in a link. -/
def isAddressChar (c : Char) : Bool := !isBlank c && c ≠ ']'

/-- The text of an external link once its address has been read: what stands behind the
blanks; if nothing does, the last of several blanks. -/
def label? (t : Text) : Option (Text × Text) :=
  match t with
  | ']' :: rest => some ([], rest)
  | _ =>
    let gap : Text := t.takeWhile isBlank
    let r := t.dropWhile isBlank
    match r.takeWhile (· ≠ ']'), r.dropWhile (· ≠ ']') with
    | [], ']' :: rest => if 2 ≤ gap.length then some (gap.drop (gap.length - 1), rest) else none
    | text, ']' :: rest => if gap.isEmpty then none else some (text, rest)
    | _, _ => none

/-- What is left behind the scheme of an address. -/
def scheme? (t : Text) : Option Text := do
  let r ← after? "http".toList t
  after? "s://".toList r <|> after? "://".toList r

/-- The text that an external link shows, and what is left behind it. -/
def external? (t : Text) : Option (Text × Text) := do
  let r ← after? ['['] t
  let r ← scheme? r
  if (r.takeWhile isAddressChar).isEmpty then none else label? (r.dropWhile isAddressChar)

/-- The text up to closing brackets, unless it is empty, and what is left behind them. -/
def linkText? (t : Text) : Option (Text × Text) :=
  match t.takeWhile (· ≠ ']') with
  | [] => none
  | text => (after? [']', ']'] (t.dropWhile (· ≠ ']'))).map fun rest => (text, rest)

/-- The text that an internal link shows, and what is left behind it: the part behind the
first bar, or the whole if there is no such part. -/
def internal? (t : Text) : Option (Text × Text) := do
  let r ← after? ['[', '['] t
  let shown := match r.dropWhile fun c => c ≠ '|' && c ≠ ']' with
    | '|' :: s => linkText? s
    | _ => none
  shown <|> linkText? r

/-- What is left behind two or more apostrophes. -/
def emphasis? (t : Text) : Option Text := do
  let r ← after? ['\'', '\''] t
  return r.dropWhile (· = '\'')

/-! ## 4. All together -/

/-- The text with every finding replaced by what it shows. -/
def showing (find : Text → Option (Text × Text)) (t : Text) : Text :=
  replaceFound (fun t => (find t).map fun (shown, rest) => (t.length - rest.length, shown)) t

/-- The text with every finding replaced by one text. -/
def replacing (find : Text → Option Text) (by_ : Text) (t : Text) : Text :=
  showing (fun t => (find t).map fun rest => (by_, rest)) t

end PlainText

open PlainText in
/-- The plain text of a markup. -/
def plainText (markup : Text) : Text :=
  let t := replacing comment? [' '] markup
  let t := replacing reference? [' '] t
  let t := replacing tag? [' '] t
  let t := showing language? t
  let t := replacing template? [' '] t
  let t := showing external? t
  let t := showing internal? t
  Text.squeeze (replacing emphasis? [] t)

end CiteMarkup
