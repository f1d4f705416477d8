import CiteMarkup.Token
import CiteMarkup.Chain.Entry
/-!
# Writing chained citations

A chained citation is written from its entries as they are, or with its names counted anew
from 1, in which case the index at the end of every key follows its name.
-/

namespace CiteMarkup

/-! ## 1. What a chain can hold -/

/-- The text holds a character twice in a row. -/
def hasPair (c : Char) : Text → Bool
  | a :: b :: r => (a = c && b = c) || hasPair c (b :: r)
  | _ => false

/-- A text that can stand in a parameter of a chain: without a bar, and without brackets
that would open or close something. -/
def fitsChain (t : Text) : Bool :=
  !(t.elem '|' || hasPair '{' t || hasPair '}' t || hasPair '[' t || hasPair ']' t)

/-! ## 2. Parameters -/

/-- A key, the sign of equality and a value. -/
def assignment (key value : Text) : Text := key ++ '=' :: value

/-- The template with the given name and parameters. -/
def writeTemplate (name : Text) (params : List Text) : Text :=
  '{' :: '{' :: name ++ '|' :: Text.join ['|'] params ++ ['}', '}']

/-- An index as the end of a key: the first one is not written. -/
def indexSuffix (i : Nat) : Text := if 1 < i then Text.ofNat i else []

/-- A name counts by its position alone if it holds no sign of equality and is the next one
after `count` names without a key. -/
def needsNoKey (value : Text) (index count : Int) : Bool :=
  !value.elem '=' && count + 1 = index

/-- The name at position `index`, after `count` names without a key. -/
def nameParam (value : Text) (index count : Int) : Text :=
  if needsNoKey value index count then value else assignment (Text.ofInt index) value

/-- The key of a parameter that is written without one of its own. -/
def Role.defaultKey? : Role → Option Text
  | .group => some "group".toList
  | .page => some "p".toList
  | .pages => some "pp".toList
  | .place => some "loc".toList
  | .name | .other => none

/-- A key without the digits at its end.  One line end may stand behind them. -/
def unindexed (key : Text) : Text :=
  let body := if key.getLast? = some '\n' then key.dropLast else key
  let digits := trailingDigits body
  if digits.isEmpty then key
  else body.take (body.length - digits.length) ++ key.drop body.length

/-- The key of an entry whose name has moved to position `index`.  A number alone is the
position, and a key without an index that belongs to no known role stays as it is. -/
def reindexedKey (key : Text) (role : Role) (index : Nat) : Text :=
  let base := unindexed key
  if base.isEmpty then Text.ofNat index
  else if base == key && role.defaultKey?.isNone then key
  else base ++ indexSuffix index

/-! ## 3. Whole chains -/

/-- The positions of the names in order of first appearance. -/
def namePositions (entries : List Entry) : List Nat :=
  (entries.filter Entry.isName).foldl
    (fun found e => if found.contains e.index then found else found ++ [e.index]) []

/-- The new position of what stood at `index`: its place among the positions, or the last
one if there was no name. -/
def newPosition (positions : List Nat) (index : Nat) : Nat :=
  match positions.idxOf? index with
  | some i => i + 1
  | none => positions.length

/-- The parameters of a chain.  `position` gives the position of an entry, `rename` its key;
`count` names without a key stand before. -/
def chainParamsFrom (position : Entry → Nat) (rename : Entry → Text → Text) :
    (count : Nat) → List Entry → List Text
  | _, [] => []
  | count, e :: r =>
    let i := position e
    match e.key with
    | some key => assignment (rename e key) e.value :: chainParamsFrom position rename count r
    | none =>
      if e.isName then
        nameParam e.value i count ::
          chainParamsFrom position rename
            (if needsNoKey e.value i count then count + 1 else count) r
      else match e.role.defaultKey? with
        | some key =>
          assignment (key ++ indexSuffix i) e.value :: chainParamsFrom position rename count r
        | none => chainParamsFrom position rename count r

/-- The chain with the given entries as they are, unless they hold no name. -/
def writeChain? (template : Text) (entries : List Entry) : Option Text :=
  if entries.any Entry.isName then
    some (writeTemplate template (chainParamsFrom (·.index) (fun _ key => key) 0 entries))
  else none

/-- The chain with the given entries, its names counted from 1, unless they hold no
name. -/
def writeRenumbered? (template : Text) (entries : List Entry) : Option Text :=
  if entries.any Entry.isName then
    let positions := namePositions entries
    let position (e : Entry) : Nat := newPosition positions e.index
    let rename (e : Entry) (key : Text) : Text := reindexedKey key e.role (position e)
    some (writeTemplate template (chainParamsFrom position rename 0 entries))
  else none

end CiteMarkup
