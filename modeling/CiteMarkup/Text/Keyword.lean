import CiteMarkup.Text.Lower
/-!
# Words in any case

Tag names, keys and schemes are recognised in capital and small letters.  Three ASCII
letters have a relative elsewhere that counts as the same letter: the long s, the Kelvin
sign, and the two Turkish forms of i.
-/

namespace CiteMarkup

/-- `c` is the letter `letter`, an ASCII letter in small form, in any case. -/
def isLetter (letter c : Char) : Bool :=
  asciiLower c = letter ||
    (letter = 's' && c.toNat = 0x17F) ||
    (letter = 'k' && c.toNat = 0x212A) ||
    (letter = 'i' && (c.toNat = 0x130 || c.toNat = 0x131))

/-- What is left after `word`, written in small letters, in any case. -/
def keyword? : (word : Text) → Text → Option Text
  | [], t => some t
  | _ :: _, [] => none
  | w :: ws, c :: r => if isLetter w c then keyword? ws r else none

/-- What is left after `word`, written in small letters, in any case of the ASCII letters
alone. -/
def asciiKeyword? : (word : Text) → Text → Option Text
  | [], t => some t
  | _ :: _, [] => none
  | w :: ws, c :: r => if asciiLower c = w then asciiKeyword? ws r else none

/-- The small form under which the name of a closing tag is compared. -/
def tagLetter (c : Char) : Char := if c.toNat = 0x130 then 'i' else lowerChar c

/-- What is left after a repetition of `name`, letter case aside. -/
def repeated? : (name : Text) → Text → Option Text
  | [], t => some t
  | _ :: _, [] => none
  | w :: ws, c :: r => if tagLetter w = tagLetter c then repeated? ws r else none

end CiteMarkup
