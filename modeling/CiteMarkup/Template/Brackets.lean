import CiteMarkup.Text.Basic
/-!
# Brackets inside parameters

Templates stand in double braces and links in double brackets, and both nest.  A separator
counts only where no bracket is open.  The two separators of a template differ in what they
count: for the bar the two kinds of bracket are counted apart, for the sign between a key
and its value together.
-/

namespace CiteMarkup

/-! ## 1. Counting open brackets -/

/-- Open templates and open links, counted apart. -/
structure Nesting where
  templates : Nat := 0
  links : Nat := 0
  deriving DecidableEq, Repr

/-- The nesting after a pair of characters that opens or closes something; a pair that
closes what is not open is no such pair. -/
def Nesting.pair? (n : Nesting) (c d : Char) : Option Nesting :=
  if c ≠ d then none
  else if c = '{' then some { n with templates := n.templates + 1 }
  else if c = '}' then
    if n.templates = 0 then none else some { n with templates := n.templates - 1 }
  else if c = '[' then some { n with links := n.links + 1 }
  else if c = ']' then
    if n.links = 0 then none else some { n with links := n.links - 1 }
  else none

/-- Nothing is open. -/
def Nesting.isOutside (n : Nesting) : Bool := n.templates = 0 && n.links = 0

/-- The number of open brackets of both kinds together, after a pair that opens or closes
one. -/
def depthPair? (n : Nat) (c d : Char) : Option Nat :=
  if c ≠ d then none
  else if c = '{' || c = '[' then some (n + 1)
  else if c = '}' || c = ']' then if n = 0 then none else some (n - 1)
  else none

/-! ## 2. Separators where nothing is open -/

/-- The lengths of the pieces of a text between the separators that count.  `length` is what
has been read of the current piece; `inPair` says that the next character is the second one
of a pair. -/
def pieceLengthsFrom {σ : Type} (pair? : σ → Char → Char → Option σ) (outside : σ → Bool)
    (sep : Char) : (length : Nat) → (inPair : Bool) → σ → Text → List Nat
  | n, _, _, [] => [n]
  | n, true, s, _ :: r => pieceLengthsFrom pair? outside sep (n + 1) false s r
  | n, false, s, c :: r =>
    match r.head?.bind (pair? s c) with
    | some s' => pieceLengthsFrom pair? outside sep (n + 1) true s' r
    | none =>
      if c = sep && outside s then n :: pieceLengthsFrom pair? outside sep 0 false s r
      else pieceLengthsFrom pair? outside sep (n + 1) false s r

/-- The lengths of the segments of a parameter text, cut at the bars outside all brackets. -/
def segmentLengths (t : Text) : List Nat :=
  pieceLengthsFrom Nesting.pair? Nesting.isOutside '|' 0 false {} t

/-- The offset of the first sign between a key and its value. -/
def equalsSign? (t : Text) : Option Nat :=
  match pieceLengthsFrom depthPair? (· = 0) '=' 0 false 0 t with
  | n :: _ :: _ => some n
  | _ => none

/-- The text cut into pieces of the given lengths, with one character between two. -/
def cutApart : (lengths : List Nat) → Text → List Text
  | [], _ => []
  | n :: ns, t => t.take n :: cutApart ns (t.drop (n + 1))

end CiteMarkup
