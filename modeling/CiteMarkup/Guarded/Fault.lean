import CiteMarkup.Reference.Record
import CiteMarkup.Token
/-!
# Faults

The stages of a transform rely on each other: one looks up records that another has numbered,
takes the first element of a list that is not empty, or asks for a body that is there.  The
guarded stages say at each such place what must hold.  Where it does not, they stop with a
fault, as they do where something is too long or too deep to be written.
-/

namespace CiteMarkup

/-- What a stage relies on and does not find, or what it cannot write. -/
inductive Fault where
  /-- A text and the form in which it is seen differ in length. -/
  | misaligned
  /-- A mark of a template comes without its template. -/
  | noTemplate
  /-- An identity is asked for an empty name. -/
  | emptyName
  /-- A reference that must have a name has none. -/
  | noName
  /-- No record has this number. -/
  | noRecord (index : Nat)
  /-- The merges lead from record to record without an end. -/
  | endless
  /-- A record holds no occurrence. -/
  | noOccurrence
  /-- A body that is to be written is missing. -/
  | noBody
  /-- There are not as many targets as names. -/
  | targetCount
  /-- Positions are asked for without any name. -/
  | noPosition
  /-- A chain that is to be written holds no name. -/
  | noChain
  /-- A parameter with a key has no sign of equality. -/
  | noSign
  /-- A run has no citation, or a citation no link. -/
  | noCitation
  /-- The offsets of an edit delimit no stretch. -/
  | badSpan (start stop : Int)
  /-- A number has more digits than can be written. -/
  | longNumber
  /-- More values stand inside of each other than can be shown. -/
  | deepValue
  deriving DecidableEq, Repr

/-- A result, or the fault that there is none for. -/
abbrev Guarded (α : Type) := Except Fault α

namespace Guarded

variable {α : Type}

/-- What an option holds; it must hold something. -/
def get (fault : Fault) : Option α → Guarded α
  | some a => .ok a
  | none => .error fault

/-- Go on if the condition holds; it must. -/
def check (fault : Fault) (condition : Bool) : Guarded Unit :=
  if condition then .ok () else .error fault

/-! ## Shared guards -/

/-- The identity of a reference; its name must not be empty. -/
def identity (name : Text) (group : Option Text) : Guarded Text := do
  check .emptyName (!name.isEmpty)
  return identityOf name group

/-- The page that a text stands for; both forms must have the same length. -/
def page (t : Text) : Guarded Page := get .misaligned (Page.ofPair? t t.veil)

end Guarded

/-! ## Marks without a shape -/

/-- The kinds of marks. -/
inductive MarkKind where
  | tag
  | chain
  | locator
  | list
  deriving DecidableEq, Repr

/-- A mark with room for whatever a mark of any kind has. -/
structure Mark where
  kind : MarkKind
  span : Span
  attributes : Attributes := []
  content : Content := .none
  template : Option Template := none
  deriving DecidableEq, Repr

namespace Mark

/-- The mark of a tag. -/
def ofTag (t : RefTag) : Mark :=
  { kind := .tag, span := t.span, attributes := t.attributes, content := t.content }

/-- The mark of a template. -/
def ofTemplate (kind : MarkKind) (t : Template) : Mark :=
  { kind := kind, span := t.span, template := some t }

/-- The mark that a token leaves. -/
def ofToken : Token → Mark
  | .tag t => ofTag t
  | .chain t => ofTemplate .chain t
  | .locator t => ofTemplate .locator t
  | .list t => ofTemplate .list t

/-- The token that a mark stands for; the mark of a template must have its template. -/
def token (k : Mark) : Guarded Token :=
  match k.kind with
  | .tag => .ok (.tag ⟨k.span, k.attributes, k.content⟩)
  | .chain => do return .chain (← Guarded.get .noTemplate k.template)
  | .locator => do return .locator (← Guarded.get .noTemplate k.template)
  | .list => do return .list (← Guarded.get .noTemplate k.template)

end Mark

/-- The tokens of a page, read off its marks. -/
def Guarded.tokens (p : Page) (listNames : List Text) : Guarded (List Token) :=
  ((p.tokens listNames).map Mark.ofToken).mapM Mark.token

end CiteMarkup
