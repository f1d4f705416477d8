import CiteMarkup.Proofs.Chain.Rereading
import CiteMarkup.Proofs.Chain.Runs
import CiteMarkup.Proofs.Template.Split
/-!
# The citations of a page

A page cites what its tags without content and the names of its chains say, in this order, and
the locators right behind a citation say where in the source to look.  What a page says is read
from right to left, so that locators are known when their citation is reached
(`readingFrom`).  The reading of a text that is read by itself and of what stands behind it
depends on the latter only through its own reading (`reading_append_congr`).
-/

namespace CiteMarkup

/-! ## 1. What a page cites -/

/-- What a tag without content cites. -/
def RefTag.link (t : RefTag) : Link := { name := t.name?.getD [], group := t.group? }

/-- What the names of a chain cite. -/
def Template.links (t : Template) : List Link :=
  entryLinks ((placedEntries t.paramText).map (·.toEntry))

/-- What a mark cites.  A body and a list cite nothing, nor does a locator by itself. -/
def Token.links : Token → List Link
  | .tag t => if t.isFull then [] else [t.link]
  | .chain t => t.links
  | .locator _ | .list _ => []

/-- The link with the pages and places that a locator gives. -/
def Link.locatedBy (l : Link) (at_ : Locator) : Link :=
  { l with
    page := (at_.page.bind Text.nonempty?).or l.page
    pages := (at_.pages.bind Text.nonempty?).or l.pages
    place := (at_.place.bind Text.nonempty?).or l.place }

/-- The links, the last one with all that locators behind it give. -/
def locateLast (behind : List Locator) : List Link → List Link
  | [] => []
  | [l] => [behind.foldl Link.locatedBy l]
  | l :: m :: r => l :: locateLast behind (m :: r)

/-- What a part of a page says about citations: the locators that it begins with, which belong
to what stands before it, and what it cites. -/
structure Reading where
  leading : List Locator
  links : List Link

/-- The marks behind an offset, read. -/
def readingFrom (seen : Text) : (stop : Nat) → List Token → Reading
  | _, [] => ⟨[], []⟩
  | stop, k :: r =>
    let after := readingFrom seen k.span.stop r
    { leading := match locatorBehind? seen stop (k :: r) with
        | some t => Locator.ofText t.paramText :: after.leading
        | none => []
      links := locateLast after.leading k.links ++ after.links }

/-- A text, read as a page. -/
def reading (names : List Text) (t : Text) : Reading :=
  readingFrom t.veil 0 ((Page.ofText t).tokens names)

/-- What a page cites, in order, with the pages and places that are given for it. -/
def citations (names : List Text) (t : Text) : List Link := (reading names t).links

/-! ## 2. Gaps -/

section Gaps

variable {u v : Text} {a b : Nat}

theorem isGapBetween_append_left (hb : b ≤ u.length) :
    isGapBetween (u ++ v) a b = isGapBetween u a b := by
  rw [isGapBetween, isGapBetween, Text.slice_append_left u v hb]

theorem isGapBetween_append_right (u v : Text) (a b : Nat) :
    isGapBetween (u ++ v) (u.length + a) (u.length + b) = isGapBetween v a b := by
  rw [isGapBetween, isGapBetween, Text.slice_append_right]
  simp

/-- A gap that goes over the end of a text is a gap on both sides of it. -/
theorem isGapBetween_append (v : Text) (ha : a ≤ u.length) (b : Nat) :
    isGapBetween (u ++ v) a (u.length + b) =
      ((u.drop a).all isGap && isGapBetween v 0 b) := by
  have hle : a ≤ u.length + b := by omega
  rw [isGapBetween, isGapBetween, decide_eq_true hle, Text.slice, List.take_length_add_append,
    List.drop_append_of_le_length ha, List.all_append]
  simp [Text.slice]

end Gaps

/-! ## 3. Readings at another place -/

section Shift

variable {u v : Text} {ks : List Token} {stop : Nat}

@[simp] theorem Token.links_shift (n : Nat) (k : Token) : (k.shift n).links = k.links := by
  cases k with
  | tag t =>
    change (if (t.shift n).isFull then [] else [(t.shift n).link]) = _
    rw [RefTag.isFull_shift]
    rfl
  | chain t => rfl
  | locator t => rfl
  | list t => rfl

theorem locatorBehind?_shift (u v : Text) (stop : Nat) (ks : List Token) :
    locatorBehind? (u ++ v) (u.length + stop) (ks.map (Token.shift u.length)) =
      (locatorBehind? v stop ks).map (Template.shift u.length) := by
  cases ks with
  | nil => rfl
  | cons k r =>
    cases k with
    | locator t =>
      have hgap : isGapBetween (u ++ v) (u.length + stop) (t.shift u.length).span.start =
          isGapBetween v stop t.span.start := isGapBetween_append_right u v _ _
      simp only [List.map_cons, Token.shift, locatorBehind?, hgap]
      split <;> rfl
    | tag t => rfl
    | chain t => rfl
    | list t => rfl

/-- A reading does not depend on where the marks stand. -/
theorem readingFrom_shift (u v : Text) (stop : Nat) (ks : List Token) :
    readingFrom (u ++ v) (u.length + stop) (ks.map (Token.shift u.length)) =
      readingFrom v stop ks := by
  induction ks generalizing stop with
  | nil => rfl
  | cons k r ih =>
    have hbehind := locatorBehind?_shift u v stop (k :: r)
    rw [List.map_cons] at hbehind
    rw [List.map_cons, readingFrom, readingFrom, hbehind, Token.span_shift, Span.stop_shift, ih,
      Token.links_shift]
    cases locatorBehind? v stop (k :: r) <;> rfl

/-- Marks behind the end of a text, read from a place in it: locators at their beginning are in
reach if only a gap is left of the text. -/
theorem readingFrom_over (v : Text) (hstop : stop ≤ u.length) (ks : List Token) :
    readingFrom (u ++ v) stop (ks.map (Token.shift u.length)) =
      { leading := if (u.drop stop).all isGap then (readingFrom v 0 ks).leading else []
        links := (readingFrom v 0 ks).links } := by
  cases ks with
  | nil => simp [readingFrom]
  | cons k r =>
    have hbehind : locatorBehind? (u ++ v) stop ((k :: r).map (Token.shift u.length)) =
        if (u.drop stop).all isGap then (locatorBehind? v 0 (k :: r)).map (Template.shift u.length)
        else none := by
      cases k with
      | locator t =>
        have hgap : isGapBetween (u ++ v) stop (t.shift u.length).span.start =
            ((u.drop stop).all isGap && isGapBetween v 0 t.span.start) :=
          isGapBetween_append v hstop _
        simp only [List.map_cons, Token.shift, locatorBehind?, hgap]
        cases (u.drop stop).all isGap <;> cases isGapBetween v 0 t.span.start <;> rfl
      | tag t => simp [locatorBehind?, Token.shift]
      | chain t => simp [locatorBehind?, Token.shift]
      | list t => simp [locatorBehind?, Token.shift]
    rw [List.map_cons] at hbehind
    rw [List.map_cons, readingFrom, hbehind, Token.span_shift, Span.stop_shift, readingFrom_shift,
      Token.links_shift, readingFrom]
    cases (u.drop stop).all isGap with
    | false => rfl
    | true => cases locatorBehind? v 0 (k :: r) <;> rfl

/-- What stands behind a text matters to the reading of its marks only through its own
reading. -/
theorem readingFrom_congr {x y : Text} {ls ms : List Token}
    (hks : ∀ k ∈ ks, k.span.stop ≤ u.length)
    (htail : ∀ stop ≤ u.length, readingFrom (u ++ x) stop ls = readingFrom (u ++ y) stop ms)
    (hstop : stop ≤ u.length) :
    readingFrom (u ++ x) stop (ks ++ ls) = readingFrom (u ++ y) stop (ks ++ ms) := by
  induction ks generalizing stop with
  | nil => exact htail stop hstop
  | cons k r ih =>
    have hk := hks k List.mem_cons_self
    have hord := k.span.ordered
    have hbehind : ∀ (v : Text) (l : List Token),
        locatorBehind? (u ++ v) stop (k :: l) = locatorBehind? u stop [k] := by
      intro v l
      cases k with
      | locator t =>
        have hgap : isGapBetween (u ++ v) stop t.span.start = isGapBetween u stop t.span.start :=
          isGapBetween_append_left (Nat.le_trans hord hk)
        simp only [locatorBehind?, hgap]
      | tag t => rfl
      | chain t => rfl
      | list t => rfl
    rw [List.cons_append, List.cons_append, readingFrom, readingFrom, hbehind, hbehind,
      ih (fun l hl => hks l (List.mem_cons_of_mem _ hl)) hk]

end Shift

/-! ## 4. Readings of texts -/

section Texts

variable {names : List Text} {u x y : Text}

theorem veil_ofText (t : Text) : (Page.ofText t).seen = t.veil := rfl

/-- A text that is read by itself, with what stands behind it. -/
theorem reading_append (hu : SelfContained names u) (x : Text) :
    reading names (u ++ x) = readingFrom (u.veil ++ x.veil) 0 ((Page.ofText u).tokens names ++
      ((Page.ofText x).tokens names).map (Token.shift u.veil.length)) := by
  rw [reading, hu.veil, hu.tokens_append, length_veil]

/-- **What stands behind a text that is read by itself matters only through its own reading.** -/
theorem reading_append_congr (hu : SelfContained names u)
    (h : reading names x = reading names y) :
    reading names (u ++ x) = reading names (u ++ y) := by
  rw [reading_append hu, reading_append hu]
  refine readingFrom_congr (fun k hk => ?_) (fun stop hstop => ?_) (Nat.zero_le _)
  · rw [length_veil]
    exact (Page.span_of_mem_tokens hk).2
  · rw [readingFrom_over _ hstop, readingFrom_over _ hstop]
    change _ = Reading.mk (if _ then (reading names y).leading else []) (reading names y).links
    rw [← h]
    rfl

end Texts
end CiteMarkup
