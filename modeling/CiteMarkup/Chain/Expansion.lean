import CiteMarkup.Chain.Locator
import CiteMarkup.Edit
import CiteMarkup.Notice
import CiteMarkup.Reference.Model
import CiteMarkup.Tag.Writing
/-!
# Expanding chained citations

A chained citation is taken apart into tags, each with a locator behind it.  A name with a
parameter that a locator cannot hold stays in a chain of its own; neighbours of this kind
stay together.  If anything would be lost, the citation stays as it is and the reason is
given.
-/

namespace CiteMarkup

/-! ## 1. Targets -/

/-- What a name of a chain now stands for: the name of the reference, none if it has lost
it, and its body. -/
structure Target where
  name : Option Text
  body : Option Text
  deriving DecidableEq, Repr

/-- The entries of each name: those with its index, unless an earlier name has taken
them. -/
def bindEntries : (names entries : List Entry) → List (Entry × List Entry)
  | [], _ => []
  | n :: ns, entries =>
    (n, entries.filter fun e => !e.isName && e.index = n.index) ::
      bindEntries ns (entries.filter fun e => e.isName || e.index ≠ n.index)

/-- A locator and a tag cannot hold the entries: one of them has an unknown role, or two
have the same role. -/
def isUnconvertible (bound : List Entry) : Bool :=
  let roles := bound.map (·.role)
  roles.contains .other || roles.eraseDups.length ≠ roles.length

/-- The group among the entries of a name; the last one counts. -/
def boundGroup? (bound : List Entry) : Option Text :=
  (bound.reverse.find? (·.role = .group)).map (·.value)

/-! ## 2. Pieces of an expansion -/

/-- What becomes of a name: a piece of text, or entries that stay in a chain. -/
inductive Piece where
  | text (t : Text)
  | chained (entries : List Entry)
  deriving DecidableEq, Repr

/-- What becomes of a name with its entries. -/
def expandName (chainText : Text) (name : Entry) (bound : List Entry) (target : Target) :
    Except Abstention Piece :=
  let value := ((target.name.bind Text.nonempty?)).getD name.value
  let body := target.body.bind Text.nonempty?
  if isUnconvertible bound then
    if target.name.isNone then .error (.nameless name.value chainText)
    else if fitsChain value then .ok (.chained ({ name with value := value } :: bound))
    else .error (.unfit value chainText)
  else match target.name, body with
    | some n, _ =>
      .ok (.text (citation (some n) (boundGroup? bound) false ++ writeLocator bound))
    | none, some b =>
      .ok (.text (fullTag none (boundGroup? bound) b false ++ writeLocator bound))
    | none, none => .error (.nameless name.value chainText)

/-- Neighbouring pieces that stay in a chain become one chain; `waiting` holds the entries of
those before. -/
def joinPieces (template : Text) : (waiting : List Entry) → List Piece → Text
  | waiting, [] => (writeRenumbered? template waiting).getD []
  | waiting, .chained entries :: r => joinPieces template (waiting ++ entries) r
  | waiting, .text t :: r =>
    (writeRenumbered? template waiting).getD [] ++ t ++ joinPieces template [] r

/-! ## 3. The expansion -/

/-- The chain as it is written on the page. -/
def Template.written (t : Template) : Text :=
  ['{', '{'] ++ t.name ++ '|' :: t.paramText ++ ['}', '}']

/-- The name of the template, or the usual one if that is empty. -/
def Template.chainName (t : Template) : Text :=
  (Text.nonempty? t.name).getD CiteMarkup.chainName

/-- The first entry that belongs to no name. -/
def unboundEntry? (entries : List Entry) : Option Entry :=
  entries.find? fun e =>
    !e.isName && !(entries.any fun n => n.isName && n.index = e.index)

/-- The targets can stand for the names of the chain: there is one for each. -/
def Chain.admits (c : Chain) (targets : List Target) : Bool :=
  targets.length = c.names.length

/-- The text that takes the place of a chain; none if it has no names.  The chain admits the
targets. -/
def Chain.expand (c : Chain) (targets : List Target) : Except Abstention (Option Text) :=
  let entries := c.plainEntries
  let text := c.template.written
  match unboundEntry? entries with
  | some e => .error (.unbound (e.key.getD []) e.value text)
  | none => do
    let bound := bindEntries (entries.filter (·.isName)) entries
    let pieces ← (bound.zip targets).mapM fun ((name, own), target) =>
      expandName text name own target
    return if pieces.isEmpty then none else some (joinPieces c.template.chainName [] pieces)

/-! ## 4. Edits to a chain -/

/-- The names whose reference has another name now. -/
def renamedNames (c : Chain) (targets : List Target) : List (PlacedEntry × Text) :=
  (c.names.zip targets).filterMap fun (e, t) =>
    match t.name with
    | some n => if n ≠ e.value then some (e, n) else none
    | none => none

/-- The entries with the names of their targets. -/
def withNames : List Entry → List Target → List Entry
  | [], _ => []
  | e :: es, ts =>
    if e.isName then
      match ts with
      | t :: ts => { e with value := t.name.getD e.value } :: withNames es ts
      | [] => e :: withNames es []
    else e :: withNames es ts

/-- The edits to a chain that stays one.  Names are replaced in place, unless one without a
key would be read as key and value: then the chain is written anew. -/
def Chain.renamingEdits (c : Chain) (targets : List Target) : List Edit :=
  let changed := renamedNames c targets
  if changed.any fun (e, n) => e.key.isNone && n.elem '=' then
    (writeChain? c.template.chainName (withNames c.plainEntries targets)).toList.map fun t =>
      ⟨c.template.span, t⟩
  else changed.map fun (e, n) => ⟨e.span.shift c.template.paramsStart, n⟩

/-- The chain cannot stay one: chains are not wanted, or a name is missing or does not fit. -/
def mustExpand (useChains : Option Bool) (targets : List Target) : Bool :=
  useChains == some false || targets.any fun t => !(t.name.any fitsChain)

/-- The chain has names and is to be expanded. -/
def Chain.isToExpand (c : Chain) (useChains : Option Bool) (targets : List Target) : Bool :=
  !c.names.isEmpty && mustExpand useChains targets

/-- The edits to a chain, and why there are none if it was to be expanded and could not
be. -/
def Chain.edits (c : Chain) (useChains : Option Bool) (targets : List Target) :
    List Edit × List Notice :=
  if c.isToExpand useChains targets then
    match c.expand targets with
    | .ok (some t) => ([⟨c.template.span, t⟩], [])
    | .ok none => ([], [])
    | .error why => ([], [.kept why])
  else (c.renamingEdits targets, [])

end CiteMarkup
