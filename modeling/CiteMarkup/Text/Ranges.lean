import CiteMarkup.Text.Basic
/-!
# Tables of code points

Character properties are data.  A table is written in lines of rows of hexadecimal numbers:
commas separate the numbers of a row, blanks the rows of a line.  The modules beside this one hold
their tables in that form, for the characters from U+0080 on; the ASCII part of each property is
written out as a rule.
-/

namespace CiteMarkup
namespace CodeTable

/-! ## 1. Reading a table -/

/-- The value of a hexadecimal digit written with capital letters. -/
def digitValue (c : Char) : Nat :=
  if c ≤ '9' then c.toNat - '0'.toNat else c.toNat - 'A'.toNat + 10

/-- The part of a line read so far: finished rows and finished numbers of the row in
progress, latest first, and the number in progress. -/
structure Reading where
  rows : List (List Nat) := []
  row : List Nat := []
  number : Nat := 0

/-- One more character of a line. -/
def Reading.next (s : Reading) (c : Char) : Reading :=
  if c = ' ' then ⟨(s.number :: s.row).reverse :: s.rows, [], 0⟩
  else if c = ',' then ⟨s.rows, s.number :: s.row, 0⟩
  else ⟨s.rows, s.row, 16 * s.number + digitValue c⟩

/-- The rows of a line. -/
def lineRows (line : String) : List (List Nat) :=
  let s := line.toList.foldl Reading.next {}
  ((s.number :: s.row).reverse :: s.rows).reverse

/-- The rows of a table. -/
def rows (table : List String) : List (List Nat) := table.flatMap lineRows

/-! ## 2. Sets of characters -/

/-- Ranges of code points: a row holds the first and the last, or one that stands alone. -/
def ranges (table : List String) : List (Nat × Nat) :=
  (rows table).map fun
    | [a, b] => (a, b)
    | r => (r.headD 0, r.headD 0)

/-- The character lies in one of the ranges. -/
def within (set : List (Nat × Nat)) (c : Char) : Bool :=
  set.any fun (a, b) => a ≤ c.toNat && c.toNat ≤ b

/-! ## 3. Maps of characters -/

/-- A stretch of a character map: `count` characters from `first` on, `stride` apart, go to
as many characters from `image` on, the same stride apart. -/
structure Stretch where
  first : Nat
  count : Nat
  stride : Nat
  image : Nat

/-- The stretches of a map, a row each. -/
def stretches (table : List String) : List Stretch :=
  (rows table).filterMap fun
    | [a, n, s, b] => some ⟨a, n, s, b⟩
    | _ => none

/-- The image of a character, if the stretch holds it. -/
def Stretch.imageOf? (s : Stretch) (c : Char) : Option Char :=
  let d := c.toNat - s.first
  if s.first ≤ c.toNat && d % s.stride = 0 && d / s.stride < s.count then
    some (Char.ofNat (s.image + d))
  else none

/-- The image of a character under the first stretch that holds it. -/
def image? (map : List Stretch) (c : Char) : Option Char := map.findSome? (·.imageOf? c)

/-- A map to texts: a row holds a character and what it becomes. -/
def expansions (table : List String) : List (Nat × Text) :=
  (rows table).filterMap fun
    | a :: t => some (a, t.map Char.ofNat)
    | [] => none

end CodeTable
end CiteMarkup
