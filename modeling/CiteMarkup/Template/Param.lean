import CiteMarkup.Page
import CiteMarkup.Template.Brackets
/-!
# Parameters of a template

The text between the name of a template and its closing braces is a list of parameters
separated by bars.  A parameter with a sign of equality has a key, the others are counted.
Structure is read from the page as seen, keys and values are taken as written.
-/

namespace CiteMarkup

/-! ## 1. Parameters -/

/-- What a parameter is called: by a key, or by its position among those without one. -/
inductive Label where
  | key (name : Text)
  | position (n : Nat)
  deriving DecidableEq, Repr

/-- One parameter.  Offsets count from the beginning of the parameter text; `span` covers
the segment with key, sign and value, and `valueStart` is the place of the trimmed value. -/
structure Param where
  label : Label
  value : Text
  valueStart : Nat
  span : Span
  deriving DecidableEq, Repr

namespace Param

/-- The name under which a parameter is written or counted. -/
def name (p : Param) : Text :=
  match p.label with
  | .key k => k
  | .position n => Text.ofNat n

/-- The parameter is written with a key. -/
def isKeyed (p : Param) : Bool :=
  match p.label with
  | .key _ => true
  | .position _ => false

/-- The parameter is written with this key, letter case aside; `key` is in small letters. -/
def hasKey (key : Text) (p : Param) : Bool := p.isKeyed && p.name.lower == key

end Param

/-! ## 2. Reading -/

/-- The segments of a parameter text, as written. -/
def Page.segments (p : Page) : List Text := cutApart (segmentLengths p.seen) p.raw

/-- A parameter from its label, the text after the sign or the whole segment, the offset
of that text, and the span of the segment. -/
def Param.make (label : Label) (text : Text) (offset : Nat) (span : Span) : Param :=
  ⟨label, text.trim, offset + text.leadingBlanks, span⟩

/-- The parameters in the segments of the given lengths, from `offset` on, `count` of them
without a key having come before. -/
def Page.paramsFrom (p : Page) : (offset count : Nat) → (lengths : List Nat) → List Param
  | _, _, [] => []
  | offset, count, n :: ns =>
    let segment := p.slice offset (offset + n)
    let span := Span.ofLength offset n
    match equalsSign? segment.seen with
    | some e =>
      Param.make (.key (Text.trim (segment.raw.take e))) (segment.raw.drop (e + 1))
          (offset + e + 1) span
        :: p.paramsFrom (offset + n + 1) count ns
    | none =>
      Param.make (.position (count + 1)) segment.raw offset span
        :: p.paramsFrom (offset + n + 1) (count + 1) ns

/-- The parameters of a parameter text; an empty text has none. -/
def Page.params (p : Page) : List Param :=
  if p.raw.isEmpty then [] else p.paramsFrom 0 0 (segmentLengths p.seen)

/-- The parameters of a parameter text given with the form in which it is to be seen. -/
def Param.ofPair? (raw seen : Text) : Option (List Param) :=
  if raw.isEmpty then some [] else (Page.ofPair? raw seen).map Page.params

/-! ## 3. Choosing -/

/-- The first value that is not empty among the parameters with one of the keys, the keys
tried in order. -/
def pickValue? (params : List Param) (keys : List Text) : Option Text :=
  keys.findSome? fun key =>
    (params.find? fun p => p.hasKey key.lower && !p.value.isEmpty).map (·.value)

end CiteMarkup
