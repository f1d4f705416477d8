import CiteMarkup.Page
import CiteMarkup.Order.Stable
import CiteMarkup.Tag.Attribute
import CiteMarkup.Tag.Opening
/-!
# Reference tags

A reference stands in a tag with a body, or is cited by a tag without one.  Tags with a body
run to the first closing tag, so they do not nest, and tags without a body that begin
inside one of them belong to that body.
-/

namespace CiteMarkup

/-! ## 1. Tags -/

/-- What a tag holds besides its attributes. -/
inductive Content where
  /-- The tag has no content. -/
  | none
  /-- The text up to the closing tag, and the place where it begins. -/
  | body (text : Text) (start : Nat)
  deriving DecidableEq, Repr

/-- A reference tag on a page. -/
structure RefTag where
  span : Span
  attributes : Attributes
  content : Content
  deriving DecidableEq, Repr

namespace RefTag

/-- The name under which the reference is cited, unless it is empty. -/
def name? (t : RefTag) : Option Text := t.attributes.value? "name".toList

/-- The group of the reference, unless it is empty. -/
def group? (t : RefTag) : Option Text := t.attributes.value? "group".toList

/-- The tag has content. -/
def isFull (t : RefTag) : Bool :=
  match t.content with
  | .none => false
  | .body _ _ => true

end RefTag

/-! ## 2. Finding them -/

/-- What is left after the closing tag. -/
def refClosing? (t : Text) : Option Text := do
  let r ← keyword? "</ref".toList t
  after? ['>'] (r.dropWhile isBlank)

/-- The number of characters of the bracket and the name that a tag begins with. -/
def refHead : Nat := 4

/-- The opening tag at the beginning of a text and what is left behind it. -/
def refOpening? (t : Text) : Option (Opening × Text) := do
  let r ← keyword? "<ref".toList t
  Opening.read? r

/-- The rule that finds a tag with content; it gives the lengths of the opening tag and of
the content. -/
def fullTagRule (t : Text) : Verdict (Opening × Nat) :=
  match refOpening? t with
  | some (o, r) =>
    if o.isEmpty then .pass
    else match until? refClosing? r with
      | some (body, rest) => .found (t.length - rest.length) (o, body.length)
      | none => .pass
  | none => .pass

/-- The rule that finds a tag without content. -/
def emptyTagRule (t : Text) : Verdict Opening :=
  match refOpening? t with
  | some (o, _) => if o.isEmpty then .found (refHead + o.length) o else .pass
  | none => .pass

/-- The attributes of a tag at `start`, taken from the page as written. -/
def Page.attributesOf (p : Page) (start : Nat) (o : Opening) : Attributes :=
  Attributes.ofText (p.raw.slice (start + refHead) (start + refHead + o.attributes))

/-- A tag with content, from what the rule has found. -/
def Page.fullTag (p : Page) (f : Found (Opening × Nat)) : RefTag :=
  let start := f.span.start + refHead + f.value.1.length
  ⟨f.span, p.attributesOf f.span.start f.value.1,
    .body (p.raw.slice start (start + f.value.2)) start⟩

/-- A tag without content, from what the rule has found. -/
def Page.emptyTag (p : Page) (f : Found Opening) : RefTag :=
  ⟨f.span, p.attributesOf f.span.start f.value, .none⟩

/-- Sorting by place keeps the order of what begins at the same place. -/
def sortByStart {α : Type} (start : α → Nat) (l : List α) : List α :=
  sortStable (fun a b => start a ≤ start b) l

theorem filter_sortByStart {α : Type} (start : α → Nat) (keep : α → Bool) (l : List α) :
    (sortByStart start l).filter keep = sortByStart start (l.filter keep) := by
  refine filter_sortStable (fun a b => ?_) (fun a b c hab hbc => ?_) keep l
  · simpa using Nat.le_total (start a) (start b)
  · simp only [decide_eq_true_eq] at *
    exact Nat.le_trans hab hbc

/-- The reference tags between two offsets of a page, in order. -/
def Page.refTagsBetween (p : Page) (a b : Nat) : List RefTag :=
  let t := p.seen.slice a b
  let full := (scan (fun _ => fullTagRule) t a).map p.fullTag
  let empty := (scan (fun _ => emptyTagRule) t a).map p.emptyTag
  let outside := empty.filter fun e => !full.any fun f => f.span.contains e.span.start
  sortByStart (·.span.start) (full ++ outside)

/-- The reference tags of a page, in order. -/
def Page.refTags (p : Page) : List RefTag := p.refTagsBetween 0 p.raw.length

end CiteMarkup
