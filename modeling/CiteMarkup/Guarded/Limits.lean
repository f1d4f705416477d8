import CiteMarkup.Chain.Writing
import CiteMarkup.Guarded.Fault
import CiteMarkup.Notice
/-!
# Limits of writing

A number is read whatever its length, but one with too many digits cannot be written, and a
value is shown in a message only if not too many values stand inside of each other.  The
writers below are those of chains and notices with a guard where a limit counts.

Positions that are counted anew, uses and references without a name are no more than a page
has characters, so what is written of them needs no guard.
-/

namespace CiteMarkup

/-- How much can be written: the digits of a number, and the values inside of each other that
a message shows.  Whoever asks for a transform may have taken some of the usual depth. -/
structure Limits where
  digits : Nat := 4300
  depth : Nat := 1000
  deriving DecidableEq, Repr

/-- The number has no more digits than can be written. -/
def Limits.admits (limits : Limits) (i : Int) : Bool := i.natAbs < Nat.pow 10 limits.digits

/-- A fault in words, if it comes from a limit. -/
def Fault.text (limits : Limits) : Fault → Text
  | .longNumber =>
    "Exceeds the limit (".toList ++ Text.ofNat limits.digits ++
      " digits) for integer string conversion; ".toList ++
        "use sys.set_int_max_str_digits() to increase the limit".toList
  | .deepValue =>
    "maximum recursion depth exceeded while getting the repr of an object".toList
  | _ => []

namespace Guarded

variable (limits : Limits)

/-! ## 1. Numbers and values -/

/-- A number in decimal digits, which must not be too many. -/
def number (i : Int) : Guarded Text := do
  check .longNumber (limits.admits i)
  return Text.ofInt i

mutual

/-- The value as it is shown in a message where `room` values may stand inside of each other,
itself included. -/
def shown (room : Nat) (v : Value) : Guarded Text :=
  match room, v with
  | 0, _ => .error .deepValue
  | _ + 1, .int i => number limits i
  | room + 1, .list l => do return '[' :: (← shownItems room l) ++ [']']
  | room + 1, .object ms => do return '{' :: (← shownMembers room ms) ++ ['}']
  | _ + 1, v => return v.shown

/-- Values one after the other. -/
def shownItems (room : Nat) : List Value → Guarded Text
  | [] => return []
  | [v] => shown room v
  | v :: w :: r => do return (← shown room v) ++ ", ".toList ++ (← shownItems room (w :: r))

/-- Members one after the other.  A name needs the room that its value needs as well. -/
def shownMembers (room : Nat) : List (Text × Value) → Guarded Text
  | [] => return []
  | [(k, v)] => do return Text.quoted k ++ ": ".toList ++ (← shown room v)
  | (k, v) :: m :: r => do
    return Text.quoted k ++ ": ".toList ++ (← shown room v) ++ ", ".toList ++
      (← shownMembers room (m :: r))

end

/-! ## 2. Notices -/

/-- A notice in words; a value in it must be one that can be shown. -/
def words (n : Notice) : Guarded Text :=
  match n with
  | .unusableMode given => do
    return "unsupported location mode ".toList ++ (← shown limits limits.depth given) ++
      ", keeping locations".toList
  | .badThreshold given => do
    return "invalid use threshold ".toList ++ (← shown limits limits.depth given) ++
      ", using 2".toList
  | n => return n.text

/-! ## 3. Chains -/

/-- The name at position `index`, after `count` names without a key; a position must not be
too long. -/
def nameParam (value : Text) (index count : Int) : Guarded Text :=
  if needsNoKey value index count then return value
  else do return assignment (← number limits index) value

/-- An index as the end of a key: the first one is not written. -/
def indexSuffix (i : Nat) : Guarded Text := if 1 < i then number limits i else return []

/-- The parameters of a chain with the given entries as they are; `count` names without a key
stand before. -/
def chainParams : (count : Nat) → List Entry → Guarded (List Text)
  | _, [] => return []
  | count, e :: r =>
    match e.key with
    | some key => do return assignment key e.value :: (← chainParams count r)
    | none =>
      if e.isName then do
        let param ← nameParam limits e.value e.index count
        let rest ← chainParams (if needsNoKey e.value e.index count then count + 1 else count) r
        return param :: rest
      else match e.role.defaultKey? with
        | some key => do
          let param := assignment (key ++ (← indexSuffix limits e.index)) e.value
          return param :: (← chainParams count r)
        | none => chainParams count r

/-- The chain with the given entries as they are, unless they hold no name. -/
def writeChain? (template : Text) (entries : List Entry) : Guarded (Option Text) :=
  if entries.any Entry.isName then do
    return some (writeTemplate template (← chainParams limits 0 entries))
  else return none

end Guarded
end CiteMarkup
