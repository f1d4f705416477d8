import CiteMarkup.Text.Blank
import CiteMarkup.Text.Digit
import CiteMarkup.Text.Keyword
/-!
# Dates and years

A complete date is recognised in a few usual shapes and checked against the calendar.
Anything else is searched for four digits that may be a year, with a month and a day behind
them.
-/

namespace CiteMarkup

/-! ## 1. The calendar -/

/-- A year with one day more. -/
def isLeapYear (y : Nat) : Bool := y % 4 = 0 && (y % 100 ≠ 0 || y % 400 = 0)

/-- The number of days of a month. -/
def daysIn (year month : Nat) : Nat :=
  if month = 2 then if isLeapYear year then 29 else 28
  else if month = 4 || month = 6 || month = 9 || month = 11 then 30
  else 31

/-- A day of the calendar. -/
structure Day where
  year : Nat
  month : Nat
  day : Nat
  deriving DecidableEq, Repr

namespace Day

/-- The day with these numbers, if the calendar has it. -/
def of? (year month day : Nat) : Option Day :=
  if 1 ≤ year && 1 ≤ month && month ≤ 12 && 1 ≤ day && day ≤ daysIn year month then
    some ⟨year, month, day⟩
  else none

/-! ## 2. Shapes of dates -/

/-- The names of the months. -/
def monthNames : List Text :=
  ["january".toList, "february".toList, "march".toList, "april".toList, "may".toList,
    "june".toList, "july".toList, "august".toList, "september".toList, "october".toList,
    "november".toList, "december".toList]

/-- The number of a month by its name, in full or by its first three letters; September also
by four. -/
def month? (name : Text) : Option Nat :=
  let n := name.map asciiLower
  if n = "sept".toList then some 9
  else (monthNames.findIdx? fun m => m == n || m.take 3 == n).map (· + 1)

/-- A number of at least `low` and at most `high` digits. -/
def number? (low high : Nat) (t : Text) : Option Nat :=
  if low ≤ t.length && t.length ≤ high && t.all isAsciiDigit then some (Text.toNat t) else none

/-- Year, month and day between two separators. -/
def separated? (sep : Char) (t : Text) : Option Day :=
  match Text.splitAll sep t with
  | [y, m, d] => do of? (← number? 4 4 y) (← number? 1 2 m) (← number? 1 2 d)
  | _ => none

/-- Year, month and day in eight digits. -/
def compact? (t : Text) : Option Day := do
  let _ ← number? 8 8 t
  of? (Text.toNat (t.take 4)) (Text.toNat ((t.drop 4).take 2)) (Text.toNat (t.drop 6))

/-- The number of a day, with a comma behind it or not. -/
def dayNumber? (t : Text) : Option Nat :=
  number? 1 2 (if t.getLast? = some ',' then t.dropLast else t)

/-- Month, day and year, or day, month and year, the month by its name. -/
def worded? (t : Text) : Option Day :=
  match Text.words t with
  | [a, b, y] =>
    match month? a with
    | some m => do of? (← number? 4 4 y) m (← dayNumber? b)
    | none => do of? (← number? 4 4 y) (← month? b) (← number? 1 2 a)
  | _ => none

/-- The day that a text names in one of the usual shapes. -/
def ofText? (t : Text) : Option Day :=
  (separated? '-' t <|> separated? '/' t) <|> (compact? t <|> worded? t)

/-- A number in two digits at least. -/
def twoDigits (n : Nat) : Text := if n < 10 then '0' :: Text.ofNat n else Text.ofNat n

end Day

/-! ## 3. Written dates -/

/-- A date in a compact form and in one for display. -/
structure WrittenDate where
  compact : Text
  display : Text
  deriving DecidableEq, Repr

/-- A complete date, written. -/
def Day.write (d : Day) : WrittenDate :=
  let y := Text.ofNat d.year
  let m := Day.twoDigits d.month
  let n := Day.twoDigits d.day
  ⟨y ++ m ++ n, y ++ '-' :: m ++ '-' :: n⟩

/-- One or two digits at the beginning of a text, or behind one other character, and what is
left behind them. -/
def fewDigits? (t : Text) : Option (Text × Text) :=
  let r := match t with
    | c :: r => if isAsciiDigit c then t else r
    | [] => []
  match (r.take 2).takeWhile isAsciiDigit with
  | [] => none
  | digits => some (digits, r.drop digits.length)

/-- Digits with zeros in front up to two. -/
def padded (digits : Text) : Text := List.replicate (2 - digits.length) '0' ++ digits

/-- The date that begins with the four digits of a year. -/
def WrittenDate.from (year rest : Text) : WrittenDate :=
  match fewDigits? rest with
  | none => ⟨year, year⟩
  | some (month, rest) =>
    let m := padded month
    match fewDigits? rest with
    | none => ⟨year ++ m, year ++ '-' :: m⟩
    | some (day, _) =>
      let d := padded day
      ⟨year ++ m ++ d, year ++ '-' :: m ++ '-' :: d⟩

/-- The date at the first four digits in a row. -/
def WrittenDate.search? : Text → Option WrittenDate
  | [] => none
  | c :: r =>
    let year : Text := (c :: r).take 4
    if year.length = 4 && year.all isAsciiDigit then some (.from year (r.drop 3))
    else search? r

/-- The complete date that a text gives in one of the usual shapes. -/
def WrittenDate.usual? (t : Text) : Option WrittenDate := (Day.ofText? t).map Day.write

/-- The date that a text gives: the complete date that `complete` reads, or else what follows the
first four digits in a row. -/
def WrittenDate.readBy? (complete : Text → Option WrittenDate) (t : Text) : Option WrittenDate :=
  match complete t with
  | some d => some d
  | none => search? t

/-- The date that a text gives, complete or not. -/
def WrittenDate.ofText? (t : Text) : Option WrittenDate := readBy? usual? t

/-! ## 4. Years -/

/-- A year as it is written, and in ASCII digits. -/
structure Year where
  written : Text
  ascii : Text
  deriving DecidableEq, Repr

/-- The first run of exactly four digits; `inRun` says that a digit stands before. -/
def yearFrom? : (inRun : Bool) → Text → Option Text
  | _, [] => none
  | inRun, c :: r =>
    if isDigit c then
      let run := (c :: r).takeWhile isDigit
      if !inRun && run.length = 4 then some run else yearFrom? true r
    else yearFrom? false r

/-- The first run of exactly four digits in a text. -/
def Year.find? (t : Text) : Option Year :=
  (yearFrom? false t).map fun run => ⟨run, Text.asciiDigits run⟩

/-- The year in ASCII digits, if it is written otherwise. -/
def Year.converted? (y : Year) : Option Text := if y.ascii = y.written then none else some y.ascii

end CiteMarkup
