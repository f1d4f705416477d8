import CiteMarkup.Value.Basic
/-!
# Writing a data file

Values in the notation of a data file, either without any space or with every item on a line
of its own.
-/

namespace CiteMarkup
namespace Value

/-- A character between double quotes: quotes, backslashes and controls are escaped. -/
def writtenCharacter (c : Char) : Text :=
  if c = '"' || c = '\\' then ['\\', c]
  else if c = '\n' then ['\\', 'n']
  else if c = '\r' then ['\\', 'r']
  else if c = '\t' then ['\\', 't']
  else if c.toNat = 8 then ['\\', 'b']
  else if c.toNat = 12 then ['\\', 'f']
  else if c.toNat < 0x20 then '\\' :: 'u' :: Text.hex 4 c.toNat
  else [c]

/-- A text between double quotes. -/
def writtenText (t : Text) : Text := '"' :: t.flatMap writtenCharacter ++ ['"']

/-- A number of double precision in a data file. -/
def writtenReal (x : Binary64) : Text :=
  let t := x.text
  if t = "nan".toList then "NaN".toList
  else if t = "inf".toList then "Infinity".toList
  else if t = "-inf".toList then "-Infinity".toList
  else t

/-- How a data file is laid out: on one line without space, or with each item on a line of
its own, indented by `step` spaces for each level. -/
inductive Layout where
  | dense
  | lines (step : Nat)
  deriving DecidableEq, Repr

/-- What stands in front of an item at a level. -/
def Layout.lineStart (l : Layout) (level : Nat) : Text :=
  match l with
  | .dense => []
  | .lines step => '\n' :: List.replicate (step * level) ' '

/-- What stands between the name and the value of a member. -/
def Layout.colon : Layout → Text
  | .dense => [':']
  | .lines _ => [':', ' ']

mutual

/-- A value at a level. -/
def writtenAt (l : Layout) (level : Nat) : Value → Text
  | .null => "null".toList
  | .bool true => "true".toList
  | .bool false => "false".toList
  | .int i => Text.ofInt i
  | .real x => writtenReal x
  | .text t => writtenText t
  | .list [] => "[]".toList
  | .list (v :: r) =>
    '[' :: l.lineStart (level + 1) ++ writtenAt l (level + 1) v ++ writtenItems l (level + 1) r ++
      l.lineStart level ++ [']']
  | .object [] => ['{', '}']
  | .object ((k, v) :: r) =>
    '{' :: l.lineStart (level + 1) ++ writtenText k ++ l.colon ++ writtenAt l (level + 1) v ++
      writtenMembers l (level + 1) r ++ l.lineStart level ++ ['}']

/-- Further items at a level, each with a comma in front. -/
def writtenItems (l : Layout) (level : Nat) : List Value → Text
  | [] => []
  | v :: r => ',' :: l.lineStart level ++ writtenAt l level v ++ writtenItems l level r

/-- Further members at a level, each with a comma in front. -/
def writtenMembers (l : Layout) (level : Nat) : List (Text × Value) → Text
  | [] => []
  | (k, v) :: r =>
    ',' :: l.lineStart level ++ writtenText k ++ l.colon ++ writtenAt l level v ++
      writtenMembers l level r

end

/-- The value as a data file. -/
def written (l : Layout) (v : Value) : Text := writtenAt l 0 v

end Value
end CiteMarkup
