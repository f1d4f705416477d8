import CiteMarkup.Guarded.Chain
import CiteMarkup.Guarded.Model
import CiteMarkup.Transform.Run
/-!
# The guarded transform

Renaming, deduplication, planning and the whole run, each with its guards.
-/

namespace CiteMarkup.Guarded

/-! ## 1. Renaming and deduplication -/

/-- The record under another name, which must not be empty. -/
def withName (r : Record) (name : Text) : Guarded Record := do
  return { r with name := some name, key := ← identity name r.group }

/-- What becomes of a record in the first round. -/
def renameOne (names nameless : Renaming) (n : Nat) (r : Record) : Guarded (Renamed × Nat) :=
  match r.name with
  | some old =>
    match newNameOf? names r with
    | some none => return (⟨r.withoutName n, false, some ⟨old, none⟩⟩, n + 1)
    | some (some new) =>
      if new.isEmpty || new = old then return (⟨r, false, none⟩, n)
      else do
        return (⟨← withName r new, false, some ⟨old, some new⟩⟩, n)
    | none => return (⟨r, false, none⟩, n)
  | none =>
    match nameless.get? r.key with
    | none => return (⟨r, false, none⟩, n)
    | some new =>
      match new.bind Text.nonempty? with
      | some new => do
        return (⟨← withName r new, true, some ⟨r.key, some new⟩⟩, n)
      | none => return (⟨r, true, none⟩, n)

/-- The first round over all records. -/
def renameAll (names nameless : Renaming) : (n : Nat) → List Record → Guarded (List Renamed)
  | _, [] => return []
  | n, r :: rs => do
    let (x, n) ← renameOne names nameless n r
    return x :: (← renameAll names nameless n rs)

/-- The second round: the spare names go to the records without a name that were not looked
up. -/
def handOut :
    (names : List (Option Text)) → List Renamed → Guarded (List (Record × Option RenameChange))
  | _, [] => return []
  | [], x :: xs => do
    return (x.record, none) :: (← handOut [] xs)
  | n :: ns, x :: xs =>
    if x.record.name.isSome || x.keyed then do
      return (x.record, none) :: (← handOut (n :: ns) xs)
    else match n.bind Text.nonempty? with
      | some new => do
        return (← withName x.record new, some ⟨x.record.key, some new⟩) :: (← handOut ns xs)
      | none => do
        return (x.record, none) :: (← handOut ns xs)

/-- The model with new names, and the changes. -/
def rename (m : Model) (names nameless : Renaming) : Guarded (Model × List RenameChange) := do
  let count := (m.records.filter (·.name.isNone)).length
  let first ← renameAll (effective names) nameless count m.records
  let second ← handOut (spareNames nameless m.records) first
  return ({ m with records := second.map (·.1) },
    first.filterMap (·.change) ++ second.filterMap (·.2))

/-- The records with each pointed at the first that is the same.  Both must have names. -/
def dedupeFrom (before : List (Record × Option Likeness)) :
    List Record → Guarded (List (Record × Option DedupeChange))
  | [] => return []
  | r :: rs => do
    let likeness := r.likeness?
    let result ← match twin? before likeness with
      | some s => do
        let change := some ⟨← get .noName r.name, ← get .noName s.name⟩
        pure ({ r with canonical := s.index }, change)
      | none => pure (r, none)
    return result :: (← dedupeFrom (before ++ [(r, likeness)]) rs)

/-- The model with references of the same body pointed at the first of them, and the
changes. -/
def dedupe (m : Model) : Guarded (Model × List DedupeChange) := do
  let results ← dedupeFrom [] m.records
  return ({ m with records := results.map (·.1) }, results.filterMap (·.2))

/-! ## 2. Chains of the page -/

/-- What a name of a chain now stands for. -/
def target (m : Model) (chain ordinal : Nat) (name : Text) : Guarded Target :=
  match m.citedBy? chain ordinal with
  | some r => do
    let s ← find m r.index
    return ⟨s.name, s.content?⟩
  | none => return ⟨some name, none⟩

/-- What the names of a chain now stand for. -/
def targets (m : Model) (c : Chain) : Guarded (List Target) :=
  c.names.zipIdx.mapM fun x => target m c.id x.2 x.1.value

/-- The edits to a chain of the page. -/
def changesTo (limits : Limits) (m : Model) (o : Options) (c : Chain) :
    Guarded (List Edit × List Notice) := do
  let (edits, notices) ← chainEdits limits c o.useChains (← targets m c)
  return (edits.flatMap fun e => m.page.change e.span e.text, notices)

/-! ## 3. Bodies that stay -/

/-- The edits to the occurrences of a record if bodies stay, and what there is to say. -/
def keepRecord (m : Model) (o : Options) (r : Record) : Guarded (List Edit × List Notice) := do
  let canonical ← find m r.index
  let isMerged : Bool := canonical.index ≠ r.index
  let uses := r.uses.flatMap fun occ =>
    match o.keptUse? r canonical isMerged occ with
    | some text => m.page.change occ.span text
    | none => []
  let listed := r.listed.flatMap (m.keptDefinition o r canonical isMerged)
  return (uses ++ listed, if r.isStripped canonical then copyNotice r r.uses.length else [])

/-! ## 4. Bodies that move -/

/-- What a tag reads if bodies move.  The one that is to hold the body, and one without a name
of a reference with a body, must find the body. -/
def movedUse (o : Options) (r : Record) (holds : Bool) : Guarded (Option Text) :=
  if holds || (r.name.isNone && r.content?.isSome) then do
    let body ← get .noBody r.content?
    return some (fullTag r.name r.group body o.normalizeBodies)
  else return r.name.map fun n => citation (some n) r.group (o.useChains == some true)

/-- The edits to the tag at a position among the tags of a reference if bodies move. -/
def moveUse (m : Model) (o : Options) (r : Record) (i : Nat) (occ : Occurrence) :
    Guarded (List Edit) := do
  match ← movedUse o r (r.location = .inline && r.content?.isSome && i = 0) with
  | some text => return m.page.change occ.span text
  | none => return []

/-- The edits to the tags among the uses of a reference if bodies move. -/
def moveUses (m : Model) (o : Options) (r : Record) (tags : List Occurrence) :
    Guarded (List Edit) := do
  let edits ← tags.zipIdx.mapM fun x => moveUse m o r x.2 x.1
  return edits.flatten

/-- The plan for a reference if bodies move, and what there is to say. -/
def moveRecord (m : Model) (o : Options) (r : Record) : Guarded (Plan × List Notice) :=
  if r.canonical = r.index then do
    let members ← merged m r
    let tags := (← usesOf m r).filter fun occ => !occ.isChained
    let hadListed := members.any fun s => s.listed.any (·.visibleBody?.isSome)
    let hadInline := members.any fun s => s.definitions.any (·.visibleBody?.isSome)
    let name := r.name.toList
    let edits ← moveUses m o r tags
    return ({ edits := edits
              movedInline := if r.location = .inline && hadListed then name else []
              movedListed := if r.location = .listDefined && hadInline then name else [] },
      if r.isStripped r then copyNotice r tags.length else [])
  else return ({}, [])

/-! ## 5. Output lists -/

/-- A list of the page with the given definitions in the place of its own.  The parameter
that they go into must have its sign of equality. -/
def updated (t : Template) (page : Text) (style : ListStyle) (entries : List ListEntry) :
    Guarded Text :=
  match t.refs? with
  | none =>
    if entries.isEmpty then return page.cut t.span
    else return page.slice t.span.start (t.span.stop - 2) ++ refsParam (style.value entries)
  | some refs =>
    if entries.isEmpty then return t.withoutRefs page refs
    else do
      let sign ← get .noSign (t.signOf? page refs)
      return t.withRefs page refs sign (style.value entries)

/-- The edits to the output lists. -/
def listEdits (p : Page) (style : ListStyle) (entries : List ListEntry) :
    (served : List (Option Text)) → List Template → Guarded (List Edit)
  | _, [] => return []
  | served, t :: ts => do
    let own := if served.contains t.group? then [] else entries.filter (·.group = t.group?)
    let text ← updated t p.raw style own
    return p.change t.span text ++ (← listEdits p style entries (served ++ [t.group?]) ts)

/-- The edits that put definitions into the output lists of the page, and into new ones. -/
def rebuildLists (m : Model) (style : ListStyle) (entries : List ListEntry) :
    Guarded (List Edit) := do
  let added := newLists style entries (m.lists.map (·.group?))
  return (← listEdits m.page style entries [] m.lists) ++
    if added.isEmpty then [] else [⟨Span.empty m.page.raw.length, added.flatten⟩]

/-! ## 6. The whole page -/

/-- The plan for a page, and what there is to say. -/
def plan (limits : Limits) (m : Model) (o : Options) (mode : Mode) :
    Guarded (Plan × List Notice) := do
  let chains ← m.chains.mapM (changesTo limits m o)
  let chainEdits := chains.flatMap (·.1)
  let chainNotices := chains.flatMap (·.2)
  match mode with
  | .keep =>
    let kept ← m.records.mapM (keepRecord m o)
    return ({ edits := chainEdits ++ kept.flatMap (·.1) }, chainNotices ++ kept.flatMap (·.2))
  | _ =>
    let moved ← m.records.mapM (moveRecord m o)
    let lists ← rebuildLists m o.listStyle m.listEntries
    return ({ edits := chainEdits ++ moved.flatMap (·.1.edits) ++ lists
              movedInline := moved.flatMap (·.1.movedInline)
              movedListed := moved.flatMap (·.1.movedListed) },
      chainNotices ++ moved.flatMap (·.2))

/-- The deduplication of a model, if it is asked for. -/
def dedupeIf (asked : Bool) (m : Model) : Guarded (Option (Model × List DedupeChange)) :=
  if asked then (dedupe m).map some else return none

/-- The text with citations joined, if it is asked for. -/
def joinIf (asked : Bool) (t : Text) (listNames : List Text) :
    Guarded (Option (Text × List Notice)) :=
  if asked then (joinCitations t listNames).map some else return none

/-- The mode that a setting gives, and what there is to say; the setting must be one that can
be shown if it gives none. -/
def modeOf (limits : Limits) (s : Setting) : Guarded (Mode × List Notice) := do
  let (mode, notices) := Mode.ofSetting s
  let _ ← notices.mapM (words limits)
  return (mode, notices)

/-- The transform of a text. -/
def transform (limits : Limits) (o : Options) (title : Option Text) (t : Text) :
    Guarded Run := do
  let listNames := o.listNames.toList
  let read ← model t listNames
  let (renamed, renames) ← rename read o.renameMap o.renameNameless
  let merged := renamed.mergeIdentities
  let deduped ← dedupeIf o.dedupe merged
  let (mode, modeNotices) ← modeOf limits o.location
  let (placed, placeNotices) ← place ((deduped.map (·.1)).getD merged) mode
  let (plan, planNotices) ← plan limits placed o mode
  let edited ← applyAll t plan.edits
  let joined ← joinIf (o.useChains = some true) edited listNames
  let journal : Journal := { title := title }
  let journal := journal.noteAll "locate".toList (modeNotices ++ placeNotices)
  let journal := journal.noteAll "render".toList planNotices
  let journal := journal.noteAll "shorthand".toList ((joined.map (·.2)).getD [])
  return { read, renamed, renames, merged, deduped, mode, placed, plan, edited
           joined := joined.map (·.1)
           journal := journal.enter [] }

end CiteMarkup.Guarded
