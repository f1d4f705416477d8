import CiteMarkup.Text.Blank
/-!
# Reading a text from left to right

The marks of a page are found by rules.  A rule looks at the text from one place on and
says whether something begins there and how many characters it covers; the reading goes on
after it, so what is found never overlaps.  Both readings below recurse on the text: the
characters that a rule has covered are counted down.
-/

namespace CiteMarkup

/-! ## 1. Finding -/

/-- What a rule says about the text from one place on. -/
inductive Verdict (α : Type) where
  /-- Nothing begins here. -/
  | pass
  /-- Nothing is reported, but nothing can begin in the next `length` characters either. -/
  | jump (length : Nat)
  /-- Something of `length` characters begins here. -/
  | found (length : Nat) (value : α)

/-- Something found in a text, and where. -/
structure Found (α : Type) where
  span : Span
  value : α

/-- The findings of a rule in the rest of a text.  `offset` is the place of the rest, `skip`
the number of its characters that are already covered, `before` the character before it. -/
def scanFrom {α : Type} (rule : Option Char → Text → Verdict α) :
    (offset skip : Nat) → (before : Option Char) → Text → List (Found α)
  | _, _, _, [] => []
  | offset, skip + 1, _, c :: r => scanFrom rule (offset + 1) skip (some c) r
  | offset, 0, before, c :: r =>
    match rule before (c :: r) with
    | .pass => scanFrom rule (offset + 1) 0 (some c) r
    | .jump n => scanFrom rule (offset + 1) (n - 1) (some c) r
    | .found n a =>
      ⟨Span.ofLength offset n, a⟩ :: scanFrom rule (offset + 1) (n - 1) (some c) r

/-- The findings of a rule in a text whose first character has offset `offset`. -/
def scan {α : Type} (rule : Option Char → Text → Verdict α) (t : Text) (offset : Nat := 0) :
    List (Found α) :=
  scanFrom rule offset 0 none t

/-! ## 2. Replacing -/

/-- The rest of a text with the findings of a rule replaced; the first `skip` characters
are already covered. -/
def replaceFrom (rule : Text → Option (Nat × Text)) : (skip : Nat) → Text → Text
  | _, [] => []
  | skip + 1, _ :: r => replaceFrom rule skip r
  | 0, c :: r =>
    match rule (c :: r) with
    | some (n, w) => w ++ replaceFrom rule (n - 1) r
    | none => c :: replaceFrom rule 0 r

/-- The text with everything that the rule finds replaced: the rule gives the length of
what it finds and what stands in its place. -/
def replaceFound (rule : Text → Option (Nat × Text)) (t : Text) : Text := replaceFrom rule 0 t

/-! ## 3. Looking for an end -/

/-- The text before the first place where `stop` accepts, and what is left after it. -/
def until? (stop : Text → Option Text) : Text → Option (Text × Text)
  | [] => (stop []).map fun rest => ([], rest)
  | c :: r =>
    match stop (c :: r) with
    | some rest => some ([], rest)
    | none => (until? stop r).map fun (body, rest) => (c :: body, rest)

/-- What is left of a text after `part`. -/
def after? : (part : Text) → Text → Option Text
  | [], t => some t
  | _ :: _, [] => none
  | p :: ps, c :: r => if p = c then after? ps r else none

end CiteMarkup
