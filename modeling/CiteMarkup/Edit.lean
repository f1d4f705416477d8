import CiteMarkup.Order.Stable
/-!
# Edits of a text

An edit puts a text in the place of a stretch of a text.  Edits are planned in any
order; for each stretch the one planned last counts, and they are carried out from left to
right.  Each is placed by how much the earlier ones have lengthened or shortened the text.
-/

namespace CiteMarkup

/-- Put `text` in the place of a stretch.  An empty stretch makes it an insertion. -/
structure Edit where
  span : Span
  text : Text
  deriving DecidableEq, Repr

namespace Edit

/-- The edit of the stretch between two offsets, if they delimit one. -/
def ofOffsets? (start stop : Int) (text : Text) : Option Edit :=
  if h : start.toNat ≤ stop.toNat then
    if 0 ≤ start && start ≤ stop then some ⟨⟨start.toNat, stop.toNat, h⟩, text⟩ else none
  else none

/-- Edits in the order in which they are carried out: by start, then by end. -/
def before (a b : Edit) : Bool :=
  a.span.start < b.span.start || (a.span.start = b.span.start && a.span.stop ≤ b.span.stop)

/-- The edits with one more; an earlier one for the same stretch goes. -/
def plan (edits : List Edit) (e : Edit) : List Edit :=
  edits.filter (·.span ≠ e.span) ++ [e]

/-- One edit for each stretch, the one planned last, in the order in which they are carried
out. -/
def settle (edits : List Edit) : List Edit := sortStable before (edits.foldl plan [])

/-- A text on which edits are being carried out, and by how much it has grown. -/
structure Progress where
  text : Text
  growth : Int

/-- The text after one more edit.  The text had `length` characters before the first edit, and
offsets past that length mean its end. -/
def Progress.apply (length : Nat) (p : Progress) (e : Edit) : Progress :=
  let start : Int := (min e.span.start length : Nat) + p.growth
  let stop : Int := (min e.span.stop length : Nat) + p.growth
  ⟨p.text.upTo start ++ e.text ++ p.text.onFrom stop, p.growth + (e.text.length - (stop - start))⟩

/-- The text with all edits carried out. -/
def applyAll (t : Text) (edits : List Edit) : Text :=
  ((settle edits).foldl (Progress.apply t.length) ⟨t, 0⟩).text

end Edit
end CiteMarkup
