import CiteMarkup.Text.Basic
/-!
# Hosts in numbers

A host in brackets is not a name but a number: eight groups of hexadecimal digits with colons
between them, of which one run of zeros may be left out, or the form that is kept for versions
to come.  Everything else in brackets is refused, a number of four octets too.

An authority ends at its first slash, so no host has one.
-/

namespace CiteMarkup
namespace HostAddress

/-- A hexadecimal digit. -/
def isHexDigit (c : Char) : Bool :=
  isAsciiDigit c || ('a' ≤ c && c ≤ 'f') || ('A' ≤ c && c ≤ 'F')

/-! ## 1. Four octets -/

/-- A decimal number below 256 without a zero in front. -/
def isOctet (t : Text) : Bool :=
  !t.isEmpty && t.length ≤ 3 && t.all isAsciiDigit && (t = ['0'] || t.head? ≠ some '0') &&
    Text.toNat t ≤ 255

/-- Four octets with dots between them. -/
def isDotted (t : Text) : Bool :=
  let octets := Text.splitAll '.' t
  octets.length = 4 && octets.all isOctet

/-! ## 2. Eight groups -/

/-- Up to four hexadecimal digits. -/
def isGroup (t : Text) : Bool := !t.isEmpty && t.length ≤ 4 && t.all isHexDigit

/-- The pieces between the colons.  Four octets at the end stand for two groups; an end with a
dot that is anything else is refused. -/
def groups? (t : Text) : Option (List Text) :=
  let pieces := Text.splitAll ':' t
  let last := pieces.getLastD []
  if last.elem '.' then
    if isDotted last then some (pieces.dropLast ++ [['0'], ['0']]) else none
  else some pieces

/-- The groups on one side of the gap.  A gap at an end of the text has an empty piece beside
it, which is no group. -/
def beside (pieces : List Text) : List Text := if pieces = [[]] then [] else pieces

/-- Eight groups, or fewer around a gap: an empty piece that is neither the first nor the last
one.  A second gap is an empty piece beside the first, and that is not a group. -/
def isGrouped (t : Text) : Bool :=
  match groups? t with
  | none => false
  | some pieces =>
    match pieces.tail.dropLast.idxOf? [] with
    | none => pieces.length = 8 && pieces.all isGroup
    | some i =>
      let groups := beside (pieces.take (i + 1)) ++ beside (pieces.drop (i + 2))
      groups.length ≤ 7 && groups.all isGroup

/-- Groups, with the name of a zone behind a percent sign perhaps. -/
def isScoped (t : Text) : Bool :=
  match Text.splitFirst? '%' t with
  | none => isGrouped t
  | some (groups, zone) => isGrouped groups && !zone.isEmpty && !zone.elem '%'

/-! ## 3. What brackets may hold -/

/-- What may follow the `v` of a version to come: its number, a dot, and one line of text. -/
def isFuture (t : Text) : Bool :=
  match Text.splitFirst? '.' t with
  | none => false
  | some (version, rest) =>
    !version.isEmpty && version.all isHexDigit && !rest.isEmpty && !rest.elem '\n'

/-- The text may stand in brackets. -/
def isValid : Text → Bool
  | 'v' :: r => isFuture r
  | t => isScoped t

end HostAddress
end CiteMarkup
