import CiteMarkup.Chain.Expansion
import CiteMarkup.Chain.Joining
import CiteMarkup.Guarded.Limits
/-!
# Guarded changes to chains

Chains are expanded, renamed in place or written anew, and citations that stand next to each
other are joined into chains.
-/

namespace CiteMarkup.Guarded

/-! ## 1. Expansion -/

/-- What becomes of a name with its entries.  What is written as a tag without a name must
have a body. -/
def expandName (chainText : Text) (name : Entry) (bound : List Entry) (target : Target) :
    Guarded (Except Abstention Piece) :=
  let value := (target.name.bind Text.nonempty?).getD name.value
  let body := target.body.bind Text.nonempty?
  let lossy := isUnconvertible bound
  if target.name.isNone && (lossy || body.isNone) then
    return .error (.nameless name.value chainText)
  else if lossy then
    if fitsChain value then return .ok (.chained ({ name with value := value } :: bound))
    else return .error (.unfit value chainText)
  else match target.name with
    | some n =>
      return .ok (.text (citation (some n) (boundGroup? bound) false ++ writeLocator bound))
    | none => do
      let b ← get .noBody body
      return .ok (.text (fullTag none (boundGroup? bound) b false ++ writeLocator bound))

/-- What becomes of the names in turn, up to the first that refuses. -/
def expandNames (chainText : Text) :
    List ((Entry × List Entry) × Target) → Guarded (Except Abstention (List Piece))
  | [] => return .ok []
  | ((name, own), target) :: rest => do
    match ← expandName chainText name own target with
    | .error why => return .error why
    | .ok piece =>
      match ← expandNames chainText rest with
      | .error why => return .error why
      | .ok pieces => return .ok (piece :: pieces)

/-- The chain of the entries that wait, its names counted from 1: there must be a last
position for what belongs to none of them. -/
def flush (template : Text) (waiting : List Entry) : Guarded Text :=
  if waiting.any Entry.isName then do
    let _ ← get .noPosition (namePositions waiting).getLast?
    get .noChain (writeRenumbered? template waiting)
  else return []

/-- Neighbouring pieces that stay in a chain become one chain. -/
def joinPieces (template : Text) : (waiting : List Entry) → List Piece → Guarded Text
  | waiting, [] => flush template waiting
  | waiting, .chained entries :: r => joinPieces template (waiting ++ entries) r
  | waiting, .text t :: r => do
    return (← flush template waiting) ++ t ++ (← joinPieces template [] r)

/-- The text that takes the place of a chain; none if it has no names.  There must be a target
for each name. -/
def expand (c : Chain) (targets : List Target) : Guarded (Except Abstention (Option Text)) := do
  check .targetCount (c.admits targets)
  let entries := c.plainEntries
  let text := c.template.written
  match unboundEntry? entries with
  | some e => return .error (.unbound (e.key.getD []) e.value text)
  | none =>
    match ← expandNames text ((bindEntries (entries.filter (·.isName)) entries).zip targets) with
    | .error why => return .error why
    | .ok pieces =>
      if pieces.isEmpty then return .ok none
      else return .ok (some (← joinPieces c.template.chainName [] pieces))

/-! ## 2. Renaming -/

/-- The entries with the names of their targets; each name takes the next target, which must
be there and have a name. -/
def withNames : List Entry → List Target → Guarded (List Entry)
  | [], _ => return []
  | e :: es, ts =>
    if e.isName then
      match ts with
      | t :: ts => do
        let name ← get .noName t.name
        return { e with value := name } :: (← withNames es ts)
      | [] => .error .targetCount
    else do
      return e :: (← withNames es ts)

/-- The edits to a chain that stays one.  Each target must have a name, and a chain that is
written anew must hold one, at a position that can be written. -/
def renamingEdits (limits : Limits) (c : Chain) (targets : List Target) :
    Guarded (List Edit) := do
  let named ← (c.names.zip targets).mapM fun x => do
    return (x.1, ← get .noName x.2.name)
  let changed := named.filter fun (e, n) => n ≠ e.value
  if changed.any fun (e, n) => e.key.isNone && n.elem '=' then
    let entries ← withNames c.plainEntries targets
    let text ← get .noChain (← writeChain? limits c.template.chainName entries)
    return [⟨c.template.span, text⟩]
  else return changed.map fun (e, n) => ⟨e.span.shift c.template.paramsStart, n⟩

/-- The edits to a chain, and why there are none if it was to be expanded and could not
be. -/
def chainEdits (limits : Limits) (c : Chain) (useChains : Option Bool)
    (targets : List Target) : Guarded (List Edit × List Notice) :=
  if c.names.isEmpty then return ([], [])
  else if mustExpand useChains targets then do
    match ← expand c targets with
    | .ok (some t) => return ([⟨c.template.span, t⟩], [])
    | .ok none => return ([], [])
    | .error why => return ([], [.kept why])
  else do
    return (← renamingEdits limits c targets, [])

/-! ## 3. Edits -/

/-- The edit between two offsets, which must delimit a stretch. -/
def edit (start stop : Int) (text : Text) : Guarded Edit :=
  get (.badSpan start stop) (Edit.ofOffsets? start stop text)

/-- The text with all edits carried out; each must be one between two offsets. -/
def applyAll (t : Text) (edits : List Edit) : Guarded Text := do
  let edits ← edits.mapM fun e => edit e.span.start e.span.stop e.text
  return Edit.applyAll t edits

/-! ## 4. Joining -/

/-- The links that a unit is written as, unless a chain cannot express it.  A locator goes to
the last link, which must be there. -/
def unitLinks (u : CiteUnit) : Guarded (Option (List Link)) :=
  match u.cite.links?, u.locator with
  | none, _ => return none
  | some links, none => return some links
  | some links, some t =>
    let l := Locator.ofText t.paramText
    if l.hasOther then return none
    else do
      let _ ← get .noCitation links.getLast?
      return locateLast? l links

/-- The links of a run, or the first unit that a chain cannot express. -/
def runLinks : List CiteUnit → Guarded (Except CiteUnit (List Link))
  | [] => return .ok []
  | u :: r => do
    match ← unitLinks u with
    | none => return .error u
    | some links =>
      match ← runLinks r with
      | .error v => return .error v
      | .ok rest => return .ok (links ++ rest)

/-- Where a unit ends: with its locator, or with its citation. -/
def unitStop (u : CiteUnit) : Nat := (u.locator.map (·.span.stop)).getD u.cite.span.stop

/-- The edit that joins a run, or what there is to say instead.  The run must have a first
and a last unit, and it must end behind its beginning. -/
def joinRun (page : Text) (run : List CiteUnit) : Guarded (List Edit × List Notice) := do
  let first ← get .noCitation run.head?
  let last ← get .noCitation run.getLast?
  let start := first.cite.span.start
  let stop := unitStop last
  let written := page.slice start stop
  if !isJoinable run || written.elem '\n' then return ([], [])
  else match ← runLinks run with
    | .error u => return ([], [.lossy (page.slice u.cite.span.start (unitStop u))])
    | .ok links =>
      let chain := writeLinks links
      if chain = written then return ([], [])
      else return ([← edit start stop chain], [])

/-- The text with every run of citations joined into a chain, and what there is to say. -/
def joinCitations (t : Text) (listNames : List Text) : Guarded (Text × List Notice) := do
  let p ← page t
  let tokens ← tokens p listNames
  let results ← (runsFrom p.seen [] (unitsFrom p.seen false tokens)).mapM (joinRun t)
  return (← applyAll t (results.flatMap (·.1)), results.flatMap (·.2))

end CiteMarkup.Guarded
