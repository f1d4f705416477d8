import CiteMarkup.Value.Basic
import CiteMarkup.Dictionary
/-!
# Reading a data file

The notation is JSON, with the names of infinity and of what is no number besides.  What is
wrong with a file is reported with the place where it was noticed.
-/

namespace CiteMarkup

/-! ## 1. Complaints -/

/-- What is wrong with a data file. -/
inductive Defect where
  | noValue
  | noName
  | noColon
  | noComma
  | controlCharacter
  | unknownEscape
  | badCodeEscape
  | openText
  | moreText
  | byteOrderMark
  deriving DecidableEq, Repr

/-- A defect, and how many characters were left where it was noticed. -/
structure Complaint where
  defect : Defect
  left : Nat
  deriving DecidableEq, Repr

namespace Defect

/-- The defect in words. -/
def text : Defect → Text
  | noValue => "Expecting value".toList
  | noName => "Expecting property name enclosed in double quotes".toList
  | noColon => "Expecting ':' delimiter".toList
  | noComma => "Expecting ',' delimiter".toList
  | controlCharacter => "Invalid control character at".toList
  | unknownEscape => "Invalid \\escape".toList
  | badCodeEscape => "Invalid \\uXXXX escape".toList
  | openText => "Unterminated string starting at".toList
  | moreText => "Extra data".toList
  | byteOrderMark => "Unexpected UTF-8 BOM (decode using utf-8-sig)".toList

end Defect

/-- The complaint in words, with line, column and offset of its place in the file. -/
def Complaint.text (c : Complaint) (file : Text) : Text :=
  let offset := file.length - c.left
  let before : Text := file.take offset
  let line := before.count '\n' + 1
  let column := (before.reverse.takeWhile (· ≠ '\n')).length + 1
  c.defect.text ++ ": line ".toList ++ Text.ofNat line ++ " column ".toList ++
    Text.ofNat column ++ " (char ".toList ++ Text.ofNat offset ++ [')']

namespace Value

/-- A reading yields something and what is left of the file. -/
abbrev Reading (α : Type) := Except Complaint (α × Text)

/-- A complaint about the place with `rest` in front. -/
def complain {α : Type} (defect : Defect) (rest : Text) : Reading α := .error ⟨defect, rest.length⟩

/-- A character that may stand between the parts of a data file. -/
def isSpace (c : Char) : Bool := c = ' ' || c = '\t' || c = '\n' || c = '\r'

/-- The file without the space at its beginning. -/
def skipSpace (t : Text) : Text := t.dropWhile isSpace

/-! ## 2. Texts -/

/-- The value of a hexadecimal digit. -/
def hexDigit? (c : Char) : Option Nat :=
  if isAsciiDigit c then some (c.toNat - '0'.toNat)
  else if 'a' ≤ c && c ≤ 'f' then some (c.toNat - 'a'.toNat + 10)
  else if 'A' ≤ c && c ≤ 'F' then some (c.toNat - 'A'.toNat + 10)
  else none

/-- The number that the four digits in front of a file stand for. -/
def fourDigits? (t : Text) : Option Nat :=
  match t with
  | a :: b :: c :: d :: _ => do
    let a ← hexDigit? a
    let b ← hexDigit? b
    let c ← hexDigit? c
    let d ← hexDigit? d
    return 4096 * a + 256 * b + 16 * c + d
  | _ => none

/-- The first half of a character written as two code units. -/
def isHighUnit (n : Nat) : Bool := 0xD800 ≤ n && n ≤ 0xDBFF

/-- The second half of a character written as two code units. -/
def isLowUnit (n : Nat) : Bool := 0xDC00 ≤ n && n ≤ 0xDFFF

/-- The character that a code escape stands for, and how many characters it takes up behind
the backslash and the letter.  A half without its partner stands for the replacement
character. -/
def codeCharacter (unit : Nat) (behind : Text) : Char × Nat :=
  if isHighUnit unit then
    match behind with
    | '\\' :: 'u' :: r =>
      match fourDigits? r with
      | some low =>
        if isLowUnit low then
          (Char.ofNat (0x10000 + (unit - 0xD800) * 0x400 + (low - 0xDC00)), 10)
        else (Char.ofNat 0xFFFD, 4)
      | none => (Char.ofNat 0xFFFD, 4)
    | _ => (Char.ofNat 0xFFFD, 4)
  else if isLowUnit unit then (Char.ofNat 0xFFFD, 4)
  else (Char.ofNat unit, 4)

/-- The character that a letter behind a backslash stands for. -/
def escaped? (c : Char) : Option Char :=
  if c = '"' || c = '\\' || c = '/' then some c
  else if c = 'b' then some (Char.ofNat 8)
  else if c = 'f' then some (Char.ofNat 12)
  else if c = 'n' then some '\n'
  else if c = 'r' then some '\r'
  else if c = 't' then some '\t'
  else none

/-- The second half of a pair is written, but not with four digits. -/
def brokenPair (unit : Nat) (behind : Text) : Bool :=
  isHighUnit unit && 6 < behind.length && Text.startsWith behind ['\\', 'u'] &&
    (fourDigits? (behind.drop 2)).isNone

/-- The rest of a text up to its closing quote.  `opening` is how much was left at its opening
quote, `skip` the number of characters that an escape has covered, and `done` holds what
has been read, last character first. -/
def textFrom (opening : Nat) : (skip : Nat) → (done : Text) → Text → Reading Text
  | _, _, [] => .error ⟨.openText, opening⟩
  | skip + 1, done, _ :: r => textFrom opening skip done r
  | 0, done, c :: r =>
    if c = '"' then .ok (done.reverse, r)
    else if c = '\\' then
      match r with
      | [] => .error ⟨.openText, opening⟩
      | d :: s =>
        if d = 'u' then
          match (if s.length ≤ 4 then none else fourDigits? s) with
          | none => complain .badCodeEscape r
          | some unit =>
            if brokenPair unit (s.drop 4) then complain .badCodeEscape (s.drop 5)
            else
              let (x, n) := codeCharacter unit (s.drop 4)
              textFrom opening (n + 1) (x :: done) r
        else match escaped? d with
          | some x => textFrom opening 1 (x :: done) r
          | none => complain .unknownEscape (c :: r)
    else if c.toNat < 0x20 then complain .controlCharacter (c :: r)
    else textFrom opening 0 (c :: done) r

/-- The text that a file begins with, its opening quote being in front. -/
def readText (t : Text) : Reading Text := textFrom t.length 0 [] (t.drop 1)

/-! ## 3. Numbers -/

/-- The digits behind a point, and what is left; nothing if no digit follows. -/
def readFraction (t : Text) : Text × Text :=
  match t with
  | '.' :: r =>
    match r.takeWhile isAsciiDigit with
    | [] => ([], t)
    | digits => (digits, r.dropWhile isAsciiDigit)
  | _ => ([], t)

/-- A sign, and what is left. -/
def readSign (t : Text) : Bool × Text :=
  match t with
  | '-' :: r => (true, r)
  | '+' :: r => (false, r)
  | _ => (false, t)

/-- An exponent, and what is left; nothing if no digit follows. -/
def readExponent (t : Text) : Option Int × Text :=
  match t with
  | e :: r =>
    if e = 'e' || e = 'E' then
      let (negative, s) := readSign r
      match s.takeWhile isAsciiDigit with
      | [] => (none, t)
      | digits =>
        let n : Int := Text.toNat digits
        (some (if negative then -n else n), s.dropWhile isAsciiDigit)
    else (none, t)
  | [] => (none, t)

/-- The digits before the point: a zero stands alone. -/
def readWhole (t : Text) : Text × Text :=
  match t with
  | '0' :: r => (['0'], r)
  | _ => (t.takeWhile isAsciiDigit, t.dropWhile isAsciiDigit)

/-- The number that a file begins with.  One without a point and an exponent is whole. -/
def readNumber (t : Text) : Reading Value :=
  let (negative, unsigned) := match t with
    | '-' :: r => (true, r)
    | _ => (false, t)
  match readWhole unsigned with
  | ([], _) => complain .noValue t
  | (whole, r) =>
    let (fraction, r) := readFraction r
    let (exponent, r) := readExponent r
    if fraction.isEmpty && exponent.isNone then
      let n : Int := Text.toNat whole
      .ok (.int (if negative then -n else n), r)
    else
      .ok (.real (Binary64.ofDecimal negative (Text.toNat (whole ++ fraction))
        (exponent.getD 0 - fraction.length)), r)

/-! ## 4. Values -/

/-- Names that stand for values. -/
def words : List (Text × Value) :=
  [ ("null".toList, .null), ("true".toList, .bool true), ("false".toList, .bool false),
    ("NaN".toList, .real .nan), ("Infinity".toList, .real (.infinity false)),
    ("-Infinity".toList, .real (.infinity true)) ]

/-- A value that is neither a text, nor a list, nor an object. -/
def readPlain (t : Text) : Reading Value :=
  match words.findSome? fun (w, v) => (afterWord? w t).map fun r => (v, r) with
  | some found => .ok found
  | none => readNumber t
where
  /-- What is left of a file after a word. -/
  afterWord? : Text → Text → Option Text
    | [], t => some t
    | _ :: _, [] => none
    | w :: ws, c :: r => if w = c then afterWord? ws r else none

mutual

/-- The value that a file begins with.  `bound` limits the steps; the length of the file
will do. -/
def read : (bound : Nat) → Text → Reading Value
  | 0, t => complain .noValue t
  | bound + 1, t =>
    match t with
    | '"' :: _ => (readText t).map fun (s, r) => (.text s, r)
    | '{' :: r =>
      let r := skipSpace r
      if r.head? = some '}' then .ok (.object [], r.drop 1)
      else (readMembers bound [] r).map fun (ms, r) => (.object ms, r)
    | '[' :: r =>
      let r := skipSpace r
      if r.head? = some ']' then .ok (.list [], r.drop 1)
      else (readItems bound [] r).map fun (l, r) => (.list l, r)
    | _ => readPlain t

/-- The members of an object up to its closing brace, `done` having been read. -/
def readMembers : (bound : Nat) → (done : Dictionary Value) → Text →
    Except Complaint (Dictionary Value × Text)
  | 0, _, t => complain .noValue t
  | bound + 1, done, t =>
    if t.head? ≠ some '"' then complain .noName t
    else do
      let (name, r) ← readText t
      let r := skipSpace r
      if r.head? ≠ some ':' then complain .noColon r
      else
        let (v, r) ← read bound (skipSpace (r.drop 1))
        let done := done.put name v
        let r := skipSpace r
        match r with
        | '}' :: r => .ok (done, r)
        | ',' :: r => readMembers bound done (skipSpace r)
        | _ => complain .noComma r

/-- The items of a list up to its closing bracket, `done` having been read, last item
first. -/
def readItems : (bound : Nat) → (done : List Value) → Text →
    Except Complaint (List Value × Text)
  | 0, _, t => complain .noValue t
  | bound + 1, done, t => do
    let (v, r) ← read bound t
    let r := skipSpace r
    match r with
    | ']' :: r => .ok ((v :: done).reverse, r)
    | ',' :: r => readItems bound (v :: done) (skipSpace r)
    | _ => complain .noComma r

end

/-- The value that a whole file holds. -/
def ofText (file : Text) : Except Complaint Value :=
  if file.head? = some (Char.ofNat 0xFEFF) then .error ⟨.byteOrderMark, file.length⟩
  else do
    let (v, r) ← read (file.length + 1) (skipSpace file)
    let r := skipSpace r
    if r.isEmpty then .ok v else .error ⟨.moreText, r.length⟩

end Value
end CiteMarkup
