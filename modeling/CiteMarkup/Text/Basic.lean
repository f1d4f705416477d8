/-!
# Texts and their offsets

A text is the list of its characters, so an offset counts characters and a slice is a
`drop` of a `take`.  Everything the library reads or writes is a `Text`; `String` appears
only where a literal is written down and at the edge of the program.

Offsets below zero occur in one place only (edits that overlap) and count from the end of
the text, see `Text.upTo` and `Text.onFrom`.
-/

namespace CiteMarkup

/-- A text, character by character. -/
abbrev Text := List Char

/-- A stretch of a text, from `start` up to and without `stop`. -/
structure Span where
  start : Nat
  stop : Nat
  ordered : start ≤ stop := by omega
  deriving DecidableEq, Repr

namespace Span

/-- The stretch of `length` characters that starts at `start`. -/
def ofLength (start length : Nat) : Span := ⟨start, start + length, Nat.le_add_right _ _⟩

/-- The empty stretch at an offset. -/
def empty (at_ : Nat) : Span := ⟨at_, at_, Nat.le_refl _⟩

/-- The same stretch, `n` characters further on. -/
def shift (n : Nat) (s : Span) : Span :=
  ⟨n + s.start, n + s.stop, Nat.add_le_add_left s.ordered n⟩

/-- The least stretch that holds both. -/
def hull (s t : Span) : Span where
  start := min s.start t.start
  stop := max s.stop t.stop
  ordered :=
    Nat.le_trans (Nat.min_le_left _ _) (Nat.le_trans s.ordered (Nat.le_max_left _ _))

/-- The offset of a character of the stretch. -/
def contains (s : Span) (i : Nat) : Bool := s.start ≤ i && i < s.stop

end Span

namespace Text

/-! ## 1. Slices -/

/-- The characters from offset `a` up to and without offset `b`. -/
def slice (t : Text) (a b : Nat) : Text := (t.take b).drop a

/-- The characters of a stretch. -/
def cut (t : Text) (s : Span) : Text := t.slice s.start s.stop

/-- The place an offset stands for in a text of `length` characters: below zero it counts
from the end, and it never leaves the text. -/
def place (length : Nat) (i : Int) : Nat :=
  if 0 ≤ i then min i.toNat length else (length + i).toNat

/-- The text before an offset. -/
def upTo (t : Text) (i : Int) : Text := t.take (place t.length i)

/-- The text after an offset. -/
def onFrom (t : Text) (i : Int) : Text := t.drop (place t.length i)

/-! ## 2. Looking for a part -/

/-- The text has `part` at its beginning. -/
def startsWith (t part : Text) : Bool := part.isPrefixOf t

/-- The offset of the first place where `part` stands. -/
def indexOf? (part : Text) : Text → Option Nat
  | [] => if part.isEmpty then some 0 else none
  | c :: r => if startsWith (c :: r) part then some 0 else (indexOf? part r).map (· + 1)

/-- `part` stands somewhere in the text. -/
def holds (t part : Text) : Bool := (indexOf? part t).isSome

/-- The text before the first `sep` and the text after it. -/
def splitFirst? (sep : Char) : Text → Option (Text × Text)
  | [] => none
  | c :: r =>
    if c = sep then some ([], r) else (splitFirst? sep r).map fun (a, b) => (c :: a, b)

/-- The pieces between the places where `sep` stands; never the empty list. -/
def splitAll (sep : Char) : Text → List Text
  | [] => [[]]
  | c :: r =>
    if c = sep then [] :: splitAll sep r
    else match splitAll sep r with
      | [] => [[c]]
      | p :: ps => (c :: p) :: ps

/-- The text, unless it is empty. -/
def nonempty? (t : Text) : Option Text := if t.isEmpty then none else some t

/-! ## 3. Building -/

/-- The parts one after the other, with `sep` between two. -/
def join (sep : Text) (parts : List Text) : Text := sep.intercalate parts

/-- Every run of characters with property `p` becomes the one character `w`. -/
def squash (p : Char → Bool) (w : Char) : Text → Text
  | [] => []
  | c :: r =>
    if p c then
      if r.head?.any p then squash p w r else w :: squash p w r
    else c :: squash p w r

/-- A natural number in decimal digits. -/
def ofNat (n : Nat) : Text := Nat.toDigits 10 n

/-- A whole number in decimal digits, with a minus sign below zero. -/
def ofInt : Int → Text
  | .ofNat n => ofNat n
  | .negSucc n => '-' :: ofNat (n + 1)

/-- `n` in hexadecimal digits, with zeros in front up to `width`. -/
def hex (width n : Nat) : Text :=
  let digits := Nat.toDigits 16 n
  List.replicate (width - digits.length) '0' ++ digits

end Text

/-! ## 4. ASCII classes -/

/-- One of `0` to `9`. -/
def isAsciiDigit (c : Char) : Bool := '0' ≤ c && c ≤ '9'

/-- One of `a` to `z` or `A` to `Z`. -/
def isAsciiLetter (c : Char) : Bool := ('a' ≤ c && c ≤ 'z') || ('A' ≤ c && c ≤ 'Z')

/-- A character below U+0080. -/
def isAscii (c : Char) : Bool := c.toNat < 0x80

/-- The value of a run of ASCII digits read as a decimal number. -/
def Text.toNat (digits : Text) : Nat :=
  digits.foldl (fun n c => 10 * n + (c.toNat - '0'.toNat)) 0

end CiteMarkup
