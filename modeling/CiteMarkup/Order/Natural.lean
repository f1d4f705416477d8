import CiteMarkup.Order.Stable
import CiteMarkup.Text.Digit
import CiteMarkup.Text.Folded
/-!
# Natural order

Names are sorted as a reader expects: letter case does not count, and runs of digits compare
as numbers, so `ref2` stands before `ref10`.
-/

namespace CiteMarkup

/-! ## 1. Keys -/

/-- What a name is sorted by: a folded text, then numbers with a folded text behind each. -/
structure NaturalKey where
  head : Text
  tail : List (Nat × Text)
  deriving DecidableEq, Repr

namespace NaturalKey

/-- The runs of digits of a text with the text between them, one character further to the
left. -/
def extend (c : Char) (parts : Text × List (Text × Text)) : Text × List (Text × Text) :=
  if isDigit c then
    match parts with
    | ([], (digits, t) :: rest) => ([], (c :: digits, t) :: rest)
    | (head, rest) => ([], ([c], head) :: rest)
  else (c :: parts.1, parts.2)

/-- The key of a name. -/
def of (name : Text) : NaturalKey :=
  let parts := name.foldr extend ([], [])
  ⟨Text.folded parts.1, parts.2.map fun (digits, t) => (Text.digitsValue digits, Text.folded t)⟩

end NaturalKey

/-! ## 2. The order -/

/-- Texts compare character by character, by code point. -/
def compareText : Text → Text → Ordering
  | [], [] => .eq
  | [], _ :: _ => .lt
  | _ :: _, [] => .gt
  | a :: s, b :: t => (compare a.toNat b.toNat).then (compareText s t)

/-- Numbers with texts behind them compare one after the other. -/
def compareTails : List (Nat × Text) → List (Nat × Text) → Ordering
  | [], [] => .eq
  | [], _ :: _ => .lt
  | _ :: _, [] => .gt
  | (m, s) :: p, (n, t) :: q => ((compare m n).then (compareText s t)).then (compareTails p q)

/-- The order of keys. -/
def NaturalKey.compare (a b : NaturalKey) : Ordering :=
  (compareText a.head b.head).then (compareTails a.tail b.tail)

/-- `a` may stand before `b`. -/
def NaturalKey.le (a b : NaturalKey) : Bool := a.compare b ≠ .gt

/-- Sorting in natural order by a name; what has equal keys keeps its order. -/
def sortByName {α : Type} (name : α → Text) (l : List α) : List α :=
  sortStable (fun a b => (NaturalKey.of (name a)).le (NaturalKey.of (name b))) l

end CiteMarkup
