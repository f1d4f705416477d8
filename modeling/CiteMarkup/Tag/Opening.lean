import CiteMarkup.Text.Word
import CiteMarkup.Text.Blank
/-!
# Opening tags

The text between the tag name and the bracket is read by a machine, a character at a time.
It is stricter than the reading of attributes: each attribute has a blank before it and a
value behind it, quotes are closed, and a bare value holds no quote and no slash, so that
a slash before the bracket always means a tag without content.
-/

namespace CiteMarkup
namespace Opening

/-! ## 1. The machine -/

/-- Where the machine stands. -/
inductive State where
  /-- Between attributes; `gap` says that the last character was a blank. -/
  | between (gap : Bool)
  /-- In the name of an attribute. -/
  | name
  /-- Behind the name of an attribute. -/
  | named
  /-- Behind the sign of equality. -/
  | equals
  /-- In a value between quotes `q`. -/
  | quoted (q : Char)
  /-- In a bare value. -/
  | bare
  /-- Behind a slash, which stands at the given offset. -/
  | slash (offset : Nat)
  deriving DecidableEq, Repr

/-- A character of an attribute name. -/
def isNameChar (c : Char) : Bool := isWordChar c || c = '-'

/-- One of the two quotes. -/
def isQuote (c : Char) : Bool := c = '"' || c = '\''

/-- The state after a character other than the bracket that ends the tag; none if the text
is no tag.  `offset` is the place of the character. -/
def next? (offset : Nat) (c : Char) : State → Option State
  | .between gap =>
    if isBlank c then some (.between true)
    else if c = '/' then some (.slash offset)
    else if gap && isNameChar c then some .name
    else none
  | .name =>
    if isNameChar c then some .name
    else if isBlank c then some .named
    else if c = '=' then some .equals
    else none
  | .named =>
    if isBlank c then some .named else if c = '=' then some .equals else none
  | .equals =>
    if isBlank c then some .equals
    else if isQuote c then some (.quoted c)
    else if c = '/' || c = '>' then none
    else some .bare
  | .quoted q => some (if c = q then .between false else .quoted q)
  | .bare =>
    if isBlank c then some (.between true)
    else if c = '/' then some (.slash offset)
    else if isQuote c then none
    else some .bare
  | .slash at_ => if isBlank c then some (.slash at_) else none

end Opening

/-! ## 2. What it accepts -/

/-- The end of an opening tag: the length of the text that holds the attributes, whether the
tag has no content, and the length up to and with the bracket. -/
structure Opening where
  attributes : Nat
  isEmpty : Bool
  length : Nat
  deriving DecidableEq, Repr

/-- The tag that a bracket at `offset` ends, if one can end it in this state. -/
def Opening.finish? (offset : Nat) : Opening.State → Option Opening
  | .between _ | .bare => some ⟨offset, false, offset + 1⟩
  | .slash at_ => some ⟨at_, true, offset + 1⟩
  | _ => none

/-- The rest of an opening tag read from a state, and what is left of the text behind it. -/
def Opening.readFrom? : (offset : Nat) → Opening.State → Text → Option (Opening × Text)
  | _, _, [] => none
  | offset, s, c :: r =>
    match if c = '>' then Opening.finish? offset s else none with
    | some o => some (o, r)
    | none =>
      match Opening.next? offset c s with
      | some s' => Opening.readFrom? (offset + 1) s' r
      | none => none

/-- The opening tag whose name has just been read, and what is left of the text behind
it. -/
def Opening.read? (t : Text) : Option (Opening × Text) := Opening.readFrom? 0 (.between false) t

end CiteMarkup
