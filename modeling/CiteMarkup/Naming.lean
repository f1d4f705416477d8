import CiteMarkup.Chain.Writing
import CiteMarkup.Tag.Writing
import CiteMarkup.Text.BaseLetter
import CiteMarkup.Text.Digit
/-!
# Names of references

What tools that suggest and sort reference names need: a plain key for a name, letters that
count, the bucket of an index a name goes to, and a test for names that a machine has given.
-/

namespace CiteMarkup

/-! ## 1. Keys -/

/-- A character that a key can hold. -/
def isKeyChar (c : Char) : Bool := isWordChar c || c = '-'

/-- The key of a name: in small letters without marks, with underscores for blanks and
without anything but word characters and hyphens. -/
def nameKey (name : Text) : Text :=
  let plain := (Text.asciiDigits name).unmarked.lower
  (Text.squash (fun c => isBlank c || c = '_') '_' plain).filter isKeyChar

/-! ## 2. Counting in letters -/

/-- The small letter with number `n`, from 0 to 25. -/
def letterOf (n : Nat) : Char := Char.ofNat ('a'.toNat + n)

/-- The word with number `n` in the list of all words over the small letters, shorter ones
first: a, b, up to z, then aa, ab and so on. -/
def letters (n : Nat) : Text :=
  if n < 26 then [letterOf n] else letters (n / 26 - 1) ++ [letterOf (n % 26)]
termination_by n
decreasing_by omega

/-- The word with a number, unless the number is below zero. -/
def lettersOf? (n : Int) : Option Text := if 0 ≤ n then some (letters n.toNat) else none

/-! ## 3. Buckets of an index -/

/-- Where an index lists a name: under its first letter, under the digits, or with the
rest. -/
inductive Bucket where
  | digit
  | letter (capital : Char)
  | other
  deriving DecidableEq, Repr

namespace Bucket

/-- The bucket of a name. -/
def of (name : Option Text) : Bucket :=
  match name.bind fun n => (Text.trim n).head? with
  | none => other
  | some c =>
    if isAsciiDigit c then digit
    else if isAsciiLetter c then
      letter (if 'a' ≤ c then Char.ofNat (c.toNat - 32) else c)
    else other

/-- The heading of a bucket. -/
def heading : Bucket → Text
  | digit => ['#']
  | letter c => [c]
  | other => ['*']

/-- The headings in the order of an index. -/
def headings : List Text :=
  ['#'] :: (List.range 26).map (fun i => [Char.ofNat ('A'.toNat + i)]) ++ [['*']]

/-- The place of a heading in an index; what is no heading comes last. -/
def place (heading : Text) : Nat := (headings.idxOf? heading).getD headings.length

/-- Names with their buckets and the places of those, in the order of an index. -/
def index (names : List (Option Text)) : List (Option Text × Text × Nat) :=
  sortStable (fun a b => a.2.2 ≤ b.2.2)
    (names.map fun n => let h := (of n).heading; (n, h, place h))

end Bucket

/-! ## 4. Names given by a machine -/

/-- Nothing but decimal digits of any script. -/
def allDigits (t : Text) : Bool := t.all isDigit

/-- Words that machines use as names, without and with digits behind them. -/
def isMachineWord (t : Text) : Bool :=
  let is (w : String) : Bool := keyword? w.toList t = some []
  let begins (w : String) : Bool := (keyword? w.toList t).any allDigits
  is "ref" || is "reference" || is "note" || begins "auto" || begins "autogenerated"

/-- A name that a machine has given, or none at all. -/
def isAutoName (name : Option Text) : Bool :=
  match name.bind Text.nonempty? with
  | none => true
  | some n =>
    let t := Text.trim n
    let numbered := match t with
      | ':' :: digits => !digits.isEmpty && allDigits digits
      | _ => false
    let lettered := match after? "Reference".toList t with
      | some r => !r.isEmpty && r.all fun c => 'A' ≤ c && c ≤ 'Z'
      | none => false
    numbered || isMachineWord t || lettered

/-! ## 5. Citing a name -/

/-- The forms in which a name is put on the clipboard. -/
inductive CopyForm where
  | plain
  | chain
  | tag
  deriving DecidableEq, Repr

/-- The form of a short name; anything unknown means the name alone. -/
def CopyForm.ofName (name : Text) : CopyForm :=
  if name = "r".toList then chain else if name = "ref".toList then tag else plain

/-- A name in the form in which it is put on the clipboard. -/
def CopyForm.write (form : CopyForm) (name : Text) : Text :=
  match form with
  | plain => name
  | chain => writeTemplate chainName [name]
  | tag => "<ref name=\"".toList ++ escapedAttribute name ++ "\" />".toList

end CiteMarkup
