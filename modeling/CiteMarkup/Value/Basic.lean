import CiteMarkup.Text.Quoted
import CiteMarkup.Value.Binary64
/-!
# Values of a data file

The values that an options file can hold, and their form in a message.
-/

namespace CiteMarkup

/-- A value: null, a truth value, a number, a text, a list, or an object with its members in
order. -/
inductive Value where
  | null
  | bool (b : Bool)
  | int (i : Int)
  | real (x : Binary64)
  | text (t : Text)
  | list (items : List Value)
  | object (members : List (Text × Value))
  deriving Repr

namespace Value

/-- The value of a member; of members with one name the last counts. -/
def member? (v : Value) (name : Text) : Option Value :=
  match v with
  | .object ms => ms.reverse.lookup name
  | _ => none

/-- A value that counts as yes where a truth value is asked for: anything but null, no, zero
and what is empty. -/
def isTrue : Value → Bool
  | .null => false
  | .bool b => b
  | .int i => i ≠ 0
  | .real x => !x.isZero
  | .text t => !t.isEmpty
  | .list l => !l.isEmpty
  | .object ms => !ms.isEmpty

mutual

/-- The value as it is shown in a message. -/
def shown : Value → Text
  | .null => "None".toList
  | .bool true => "True".toList
  | .bool false => "False".toList
  | .int i => Text.ofInt i
  | .real x => x.text
  | .text t => t.quoted
  | .list l => '[' :: shownItems l ++ [']']
  | .object ms => '{' :: shownMembers ms ++ ['}']

/-- Values one after the other. -/
def shownItems : List Value → Text
  | [] => []
  | [v] => shown v
  | v :: w :: r => shown v ++ ", ".toList ++ shownItems (w :: r)

/-- Members one after the other. -/
def shownMembers : List (Text × Value) → Text
  | [] => []
  | [(k, v)] => Text.quoted k ++ ": ".toList ++ shown v
  | (k, v) :: m :: r =>
      Text.quoted k ++ ": ".toList ++ shown v ++ ", ".toList ++ shownMembers (m :: r)

end

end Value
end CiteMarkup
