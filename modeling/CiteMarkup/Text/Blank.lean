import CiteMarkup.Text.Basic
/-!
# Blank characters

Blanks separate the words of a text and surround the values that are read from it.  The
set takes in the controls U+001C to U+001F, the next-line control U+0085 and every space
separator, but no zero-width character.
-/

namespace CiteMarkup

/-! ## 1. The set -/

/-- A character that counts as white space. -/
def isBlank (c : Char) : Bool :=
  let n := c.toNat
  (0x09 ≤ n && n ≤ 0x0D) || (0x1C ≤ n && n ≤ 0x20) ||
    (0x80 ≤ n &&
      (n = 0x85 || n = 0xA0 || n = 0x1680 || (0x2000 ≤ n && n ≤ 0x200A) || n = 0x2028 ||
        n = 0x2029 || n = 0x202F || n = 0x205F || n = 0x3000))

/-- A space or a tab: what may stand between two marks of one run. -/
def isGap (c : Char) : Bool := c = ' ' || c = '\t'

/-! ## 2. Trimming -/

namespace Text

/-- The text without the blanks at its beginning. -/
def trimStart (t : Text) : Text := t.dropWhile isBlank

/-- The text without the blanks at its end. -/
def trimEnd (t : Text) : Text := (t.reverse.dropWhile isBlank).reverse

/-- The text without the blanks around it. -/
def trim (t : Text) : Text := trimEnd (trimStart t)

/-- How many blanks the text begins with. -/
def leadingBlanks (t : Text) : Nat := (t.takeWhile isBlank).length

/-- The text consists of blanks only. -/
def isBlankOnly (t : Text) : Bool := t.all isBlank

/-- Each run of blanks becomes one space, and none is left at the ends. -/
def squeeze (t : Text) : Text := trim (squash isBlank ' ' t)

/-- The words of a text: its maximal stretches without a blank.  `word` is the part of the
current word already read, last character first. -/
def wordsFrom (word : Text) : Text → List Text
  | [] => if word.isEmpty then [] else [word.reverse]
  | c :: r =>
    if isBlank c then
      if word.isEmpty then wordsFrom [] r else word.reverse :: wordsFrom [] r
    else wordsFrom (c :: word) r

/-- The words of a text. -/
def words (t : Text) : List Text := wordsFrom [] t

end Text
end CiteMarkup
