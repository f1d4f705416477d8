import CiteMarkup.Text.Scan
import CiteMarkup.Text.Keyword
import CiteMarkup.Text.Word
/-!
# Pages and their protected parts

Citation marks inside comments, `nowiki`, `pre`, `syntaxhighlight` and `source` do not
count.  A page is therefore kept twice: as written, and as seen by the readers, with a veil
over every protected character.  Line ends stay visible.  Both texts have the same length,
so an offset found in the one is an offset of the other.
-/

namespace CiteMarkup

/-! ## 1. Protected parts -/

/-- The character that stands for a protected one.  It is no blank, so a protected part
still separates the marks around it. -/
def veil : Char := Char.ofNat 0x10203D

namespace Protected

/-- How many characters lead from a text to what is left of it. -/
def covered (t rest : Text) : Nat := t.length - rest.length

/-- A comment; one that is not closed goes on to the end of the text. -/
def comment? (t : Text) : Option Nat :=
  (after? "<!--".toList t).map fun r =>
    match until? (after? "-->".toList) r with
    | some (_, rest) => covered t rest
    | none => t.length

/-- The end of a tag without content: a slash and the bracket. -/
def slashEnd? (t : Text) : Option Text :=
  match t.dropWhile isBlank with
  | '/' :: r => after? ['>'] (r.dropWhile isBlank)
  | _ => none

/-- The tag `nowiki` without content. -/
def emptyTag? (t : Text) : Option Nat := do
  let r ← keyword? "<nowiki".toList t
  let rest ← slashEnd? r
  return covered t rest

/-- The names of the elements whose content is protected. -/
def elementNames : List Text :=
  ["nowiki".toList, "pre".toList, "syntaxhighlight".toList, "source".toList]

/-- What is left after the closing tag of the element `name`. -/
def closing? (name : Text) (t : Text) : Option Text := do
  let r ← after? "</".toList t
  let r ← repeated? name r
  after? ['>'] (r.dropWhile isBlank)

/-- What is left after the opening tag of an element, once its name has been read: the
first bracket ends it, and a slash before that bracket makes it no opening tag. -/
def openingEnd? (t : Text) : Option Text :=
  match t.dropWhile (· ≠ '>') with
  | _ :: rest => if (t.takeWhile (· ≠ '>')).getLast? = some '/' then none else some rest
  | [] => none

/-- An element with protected content, up to the first closing tag of its name as it is
written in the opening tag. -/
def element? (t : Text) : Option Nat := do
  let r ← after? ['<'] t
  elementNames.findSome? fun name => do
    let s ← keyword? name r
    if s.head?.any isWordChar then none
    else do
      let inside ← openingEnd? s
      let (_, rest) ← until? (closing? (r.take name.length)) inside
      return covered t rest

/-- The length of the protected part that begins a text. -/
def length? (t : Text) : Option Nat := (comment? t <|> emptyTag? t) <|> element? t

end Protected

/-! ## 2. The veil -/

/-- The veil over a character; a line end stays. -/
def veiled (c : Char) : Char := if c = '\n' then c else veil

/-- The rest of a text with its protected parts veiled; the first `hidden` characters belong
to such a part already. -/
def veilFrom : (hidden : Nat) → Text → Text
  | _, [] => []
  | n + 1, c :: r => veiled c :: veilFrom n r
  | 0, c :: r =>
    match Protected.length? (c :: r) with
    | some n => veiled c :: veilFrom (n - 1) r
    | none => c :: veilFrom 0 r

/-- The text with its protected parts veiled. -/
def Text.veil (t : Text) : Text := veilFrom 0 t

theorem length_veilFrom (t : Text) (n : Nat) : (veilFrom n t).length = t.length := by
  induction t generalizing n with
  | nil => cases n <;> rfl
  | cons c r ih =>
    cases n with
    | succ n => simp [veilFrom, ih]
    | zero =>
      unfold veilFrom
      split <;> simp [ih]

@[simp] theorem length_veil (t : Text) : t.veil.length = t.length := length_veilFrom t 0

/-! ## 3. Pages -/

/-- A text as written and as seen by the readers. -/
structure Page where
  raw : Text
  seen : Text
  aligned : seen.length = raw.length

namespace Page

/-- The page that a text stands for. -/
def ofText (t : Text) : Page := ⟨t, t.veil, length_veil t⟩

/-- A text that is seen as it is written. -/
def bare (t : Text) : Page := ⟨t, t, rfl⟩

/-- A text and the form in which it is to be seen, if their lengths agree. -/
def ofPair? (raw seen : Text) : Option Page :=
  if h : seen.length = raw.length then some ⟨raw, seen, h⟩ else none

/-- The part of a page between two offsets. -/
def slice (p : Page) (a b : Nat) : Page :=
  ⟨p.raw.slice a b, p.seen.slice a b, by simp [Text.slice, p.aligned]⟩

end Page
end CiteMarkup
