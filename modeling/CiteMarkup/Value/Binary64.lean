import CiteMarkup.Text.Basic
/-!
# Floating-point numbers as text

A number of double precision is kept by its bits.  It is written with the fewest decimal
digits that read back as the same number; of two such decimals the nearer one is taken.
All of this is done in natural numbers.
-/

namespace CiteMarkup

/-- A number of double precision, by its bits. -/
structure Binary64 where
  bits : UInt64
  deriving DecidableEq, Repr

namespace Binary64

/-! ## 1. Reading -/

/-- The number nearest to `digits · 10 ^ exponent`.  Beyond the exponents of finite numbers
that is infinity or zero. -/
def ofDecimal (negative : Bool) (digits : Nat) (exponent : Int) : Binary64 :=
  let size : Int := (Nat.toDigits 10 digits).length + exponent
  let x : Float :=
    if digits = 0 || size < -400 then 0
    else if 400 < size then Float.ofBits 0x7FF0000000000000
    else Float.ofScientific digits (exponent < 0) exponent.natAbs
  ⟨if negative then x.toBits ||| 0x8000000000000000 else x.toBits⟩

/-- Infinity, above or below. -/
def infinity (negative : Bool) : Binary64 :=
  ⟨if negative then 0xFFF0000000000000 else 0x7FF0000000000000⟩

/-- What is no number. -/
def nan : Binary64 := ⟨0x7FF8000000000000⟩

/-! ## 2. Parts -/

/-- The number is below zero, or the negative zero. -/
def isNegative (x : Binary64) : Bool := 0x8000000000000000 ≤ x.bits

/-- The exponent as it is stored. -/
def exponentBits (x : Binary64) : Nat := x.bits.toNat / Nat.pow 2 52 % Nat.pow 2 11

/-- The fraction as it is stored. -/
def fractionBits (x : Binary64) : Nat := x.bits.toNat % Nat.pow 2 52

/-- The number is zero. -/
def isZero (x : Binary64) : Bool := x.exponentBits = 0 && x.fractionBits = 0

/-- The whole number `m` and the exponent `q` with the number being `m · 2 ^ q`, the sign
aside. -/
def parts (x : Binary64) : Nat × Int :=
  if x.exponentBits = 0 then (x.fractionBits, -1074)
  else (Nat.pow 2 52 + x.fractionBits, (x.exponentBits : Int) - 1075)

/-! ## 3. The shortest decimal -/

/-- The numbers that round to one number: those from `low / unit` to `high / unit`, with the
ends if `closed`.  The number itself is `value / unit`. -/
structure Interval where
  low : Nat
  value : Nat
  high : Nat
  unit : Nat
  closed : Bool

/-- The interval of a number other than zero.  Below a power of two the next number is only
half as far. -/
def interval (x : Binary64) : Interval :=
  let (m, q) := x.parts
  let below := if x.fractionBits = 0 && 1 < x.exponentBits then 1 else 2
  let e := q - 2
  let scale := if 0 ≤ e then Nat.pow 2 e.toNat else 1
  let unit := if 0 ≤ e then 1 else Nat.pow 2 (-e).toNat
  ⟨(4 * m - below) * scale, 4 * m * scale, (4 * m + 2) * scale, unit, m % 2 = 0⟩

/-- The power of ten above a number: the least `k` with the number below `10 ^ k`.  The
first of the `tries` numbers from `k` on that will do. -/
def magnitudeFrom (value unit : Nat) : (tries : Nat) → (k : Int) → Int
  | 0, k => k
  | n + 1, k =>
    let isBelow := if 0 ≤ k then value < unit * Nat.pow 10 k.toNat
      else value * Nat.pow 10 (-k).toNat < unit
    if isBelow then k else magnitudeFrom value unit n (k + 1)

/-- The power of ten above the numbers of an interval. -/
def Interval.magnitude (i : Interval) : Int := magnitudeFrom i.value i.unit 640 (-325)

/-- The decimal `d · 10 ^ p` lies in the interval. -/
def Interval.holds (i : Interval) (d : Nat) (p : Int) : Bool :=
  let x := if 0 ≤ p then d * Nat.pow 10 p.toNat * i.unit else d * i.unit
  let s := if 0 ≤ p then 1 else Nat.pow 10 (-p).toNat
  if i.closed then i.low * s ≤ x && x ≤ i.high * s else i.low * s < x && x < i.high * s

/-- The decimal with `n` digits that lies in the interval, the nearer if both neighbours
do; none if neither does.  `k` is the power of ten above the number. -/
def Interval.decimal? (i : Interval) (k : Int) (n : Nat) : Option (Nat × Int) :=
  let p := k - n
  let num := if 0 ≤ p then i.value else i.value * Nat.pow 10 (-p).toNat
  let den := if 0 ≤ p then i.unit * Nat.pow 10 p.toNat else i.unit
  let d := num / den
  let up := den < 2 * (num % den) || (den = 2 * (num % den) && d % 2 = 1)
  let near := if up then d + 1 else d
  let far := if up then d else d + 1
  if i.holds near p then some (near, p) else if i.holds far p then some (far, p) else none

/-- The digits of the shortest decimal and the place of its point, counted from their
beginning. -/
def shortest (x : Binary64) : Text × Int :=
  let i := x.interval
  let k := i.magnitude
  match (List.range 17).findSome? fun n => i.decimal? k (n + 1) with
  | some (d, p) =>
    let digits := Nat.toDigits 10 d
    ((digits.reverse.dropWhile (· = '0')).reverse, p + digits.length)
  | none => (['0'], 1)

/-! ## 4. Writing -/

/-- Digits with a point at a place.  From a ten-thousandth up to sixteen digits before
the point the number is written out, otherwise with an exponent of at least two digits. -/
def layout (digits : Text) (point : Int) : Text :=
  if -4 < point && point ≤ 16 then
    if point ≤ 0 then '0' :: '.' :: List.replicate (-point).toNat '0' ++ digits
    else
      let n := point.toNat
      if digits.length ≤ n then digits ++ List.replicate (n - digits.length) '0' ++ ['.', '0']
      else digits.take n ++ '.' :: digits.drop n
  else
    let e := point - 1
    let size := Text.ofNat e.natAbs
    let mantissa := match digits with
      | d :: f :: r => d :: '.' :: f :: r
      | ds => ds
    mantissa ++ 'e' :: (if e < 0 then '-' else '+') ::
      (if size.length < 2 then '0' :: size else size)

/-- The number as text. -/
def text (x : Binary64) : Text :=
  let magnitude :=
    if x.exponentBits = 2047 then if x.fractionBits = 0 then "inf".toList else "nan".toList
    else if x.isZero then "0.0".toList
    else let (digits, point) := x.shortest; layout digits point
  if x.isNegative && magnitude ≠ "nan".toList then '-' :: magnitude else magnitude

end Binary64
end CiteMarkup
