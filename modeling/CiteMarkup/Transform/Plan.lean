import CiteMarkup.Chain.Expansion
import CiteMarkup.OutputList
import CiteMarkup.Transform.Placement
/-!
# Planning the edits of a page

Every occurrence that has to read differently gets an edit.  If bodies stay where they are,
each occurrence keeps its form and only what renaming, merging or cleaning demands is
changed.  If they move, each body is written at the first tag that cites it or in an output
list, and every other tag cites it.
-/

namespace CiteMarkup

/-! ## 1. Plans -/

/-- What is planned for a page: the edits, and the names of the references whose bodies move
into the text or into a list. -/
structure Plan where
  edits : List Edit := []
  movedInline : List Text := []
  movedListed : List Text := []
  deriving DecidableEq, Repr

/-- The edit that makes a stretch of the page read `text`, unless it does already. -/
def Page.change (p : Page) (span : Span) (text : Text) : List Edit :=
  if p.raw.cut span = text then [] else [⟨span, text⟩]

/-! ## 2. Chained citations -/

/-- The record that a name of a chain cites. -/
def Model.citedBy? (m : Model) (chain ordinal : Nat) : Option Record :=
  m.records.find? fun r => r.uses.any fun o => o.form = .chained chain ordinal

/-- What the names of a chain now stand for. -/
def Model.targets (m : Model) (c : Chain) : List Target :=
  c.names.mapIdx fun i e =>
    match m.citedBy? c.id i with
    | some r => let s := m.canonical r; ⟨s.name, s.content?⟩
    | none => ⟨some e.value, none⟩

/-- The edits to a chain of the page. -/
def Model.chainEdits (m : Model) (o : Options) (c : Chain) : List Edit × List Notice :=
  let (edits, notices) := c.edits o.useChains (m.targets c)
  (edits.flatMap fun e => m.page.change e.span e.text, notices)

/-! ## 3. Bodies that stay -/

/-- The body of an occurrence as it is written if it stays. -/
def Options.keptBody (o : Options) (occ : Occurrence) : Text :=
  let body := occ.body?.getD []
  if o.normalizeBodies then normalized body else body

/-- A reference that has lost its name, so that its body has to stand at every use. -/
def Record.isStripped (r : Record) (canonical : Record) : Bool :=
  canonical.name.isNone && r.writtenName.isSome

/-- What a tag with content reads if bodies stay; none if it stays as it is. -/
def Options.keptTag? (o : Options) (r canonical : Record) (occ : Occurrence) : Option Text :=
  if occ.name = canonical.name && !o.normalizeBodies then none
  else match canonical.content? with
    | some body =>
      if r.isStripped canonical && occ.visibleBody?.isNone then
        some (fullTag none occ.group body o.normalizeBodies)
      else some (tagAround canonical.name occ.group (o.keptBody occ))
    | none => some (tagAround canonical.name occ.group (o.keptBody occ))

/-- What a tag that only cites reads if bodies stay; none if it stays as it is.  Without a
name it gets a copy of the body, if there is one. -/
def Options.keptCitation? (o : Options) (r canonical : Record) (isMerged : Bool)
    (occ : Occurrence) : Option Text :=
  let preferChain := o.useChains == some true
  match canonical.name with
  | none =>
    if r.isStripped canonical then
      canonical.content?.map fun body => fullTag none occ.group body o.normalizeBodies
    else none
  | some name =>
    if occ.name = some name && !isMerged && !preferChain then none
    else some (citation (some name) canonical.group preferChain)

/-- What a use reads if bodies stay; none if it stays as it is. -/
def Options.keptUse? (o : Options) (r canonical : Record) (isMerged : Bool)
    (occ : Occurrence) : Option Text :=
  if occ.isChained then none
  else if occ.isFull && !isMerged then o.keptTag? r canonical occ
  else o.keptCitation? r canonical isMerged occ

/-- The stretch of a definition in a list, with the line end behind it. -/
def Page.definitionLine (p : Page) (occ : Occurrence) : Span :=
  if p.raw[occ.span.stop]? = some '\n' then
    ⟨occ.span.start, occ.span.stop + 1, Nat.le_succ_of_le occ.span.ordered⟩
  else occ.span

/-- The edits to a definition in a list if bodies stay.  It goes if its reference has been
merged into another one, or has lost its name and is used. -/
def Model.keptDefinition (m : Model) (o : Options) (r canonical : Record) (isMerged : Bool)
    (occ : Occurrence) : List Edit :=
  if isMerged || (canonical.name.isNone && !r.uses.isEmpty) then
    [⟨m.page.definitionLine occ, []⟩]
  else if occ.name = canonical.name && !o.normalizeBodies then []
  else
    let ownGroup := match occ.form with
      | .listed _ own => if own then occ.group else none
      | _ => occ.group
    m.page.change occ.span (tagAround canonical.name ownGroup (o.keptBody occ))

/-- What there is to say about a body that is copied to several uses. -/
def copyNotice (r : Record) (uses : Nat) : List Notice :=
  if 1 < uses then [.copied (r.writtenName.getD []) uses] else []

/-- The edits to the occurrences of a record if bodies stay, and what there is to say. -/
def Model.keepRecord (m : Model) (o : Options) (r : Record) : List Edit × List Notice :=
  let canonical := m.canonical r
  let isMerged := canonical.index ≠ r.index
  let uses := r.uses.flatMap fun occ =>
    match o.keptUse? r canonical isMerged occ with
    | some text => m.page.change occ.span text
    | none => []
  let listed := r.listed.flatMap (m.keptDefinition o r canonical isMerged)
  (uses ++ listed, if r.isStripped canonical then copyNotice r r.uses.length else [])

/-! ## 4. Bodies that move -/

/-- What a tag reads if bodies move; none if it stays as it is.  `holds` says that it is the
one that is to hold the body. -/
def Options.movedUse? (o : Options) (r : Record) (holds : Bool) : Option Text :=
  match r.name, r.content? with
  | some name, some body =>
    if holds then some (fullTag (some name) r.group body o.normalizeBodies)
    else some (citation (some name) r.group (o.useChains == some true))
  | some name, none => some (citation (some name) r.group (o.useChains == some true))
  | none, some body => some (fullTag none r.group body o.normalizeBodies)
  | none, none => none

/-- The edits to the tags among the uses of a reference if bodies move.  In the text the body
stands at the first of them. -/
def Model.moveUses (m : Model) (o : Options) (r : Record) (tags : List Occurrence) : List Edit :=
  (tags.mapIdx fun i occ =>
    match o.movedUse? r (r.location = .inline && i = 0) with
    | some text => m.page.change occ.span text
    | none => []).flatten

/-- The plan for a reference if bodies move, and what there is to say. -/
def Model.moveRecord (m : Model) (o : Options) (r : Record) : Plan × List Notice :=
  if r.canonical = r.index then
    let members := m.merged r
    let tags := (m.usesOf r).filter fun occ => !occ.isChained
    let hadListed := members.any fun s => s.listed.any (·.visibleBody?.isSome)
    let hadInline := members.any fun s => s.definitions.any (·.visibleBody?.isSome)
    let name := r.name.toList
    ({ edits := m.moveUses o r tags
       movedInline := if r.location = .inline && hadListed then name else []
       movedListed := if r.location = .listDefined && hadInline then name else [] },
      if r.isStripped r then copyNotice r tags.length else [])
  else ({}, [])

/-! ## 5. Output lists -/

/-- The definition of a reference that is to stand in an output list. -/
def Record.definition? (r : Record) : Option ListEntry :=
  if r.canonical = r.index && r.location = .listDefined then
    r.content?.map fun body => ⟨r.name, r.group, body⟩
  else none

/-- The definitions that are to stand in output lists, in the order of the records. -/
def Model.listEntries (m : Model) : List ListEntry := m.records.filterMap (·.definition?)

/-- The group whose references a list prints. -/
def Template.group? (t : Template) : Option Text := t.value? "group".toList

/-- The edits to the output lists.  The first list of a group gets its definitions, further
ones none; `served` are the groups that have had their list. -/
def Page.listEdits (p : Page) (style : ListStyle) (entries : List ListEntry) :
    (served : List (Option Text)) → List Template → List Edit
  | _, [] => []
  | served, t :: ts =>
    let own := if served.contains t.group? then [] else entries.filter (·.group = t.group?)
    p.change t.span (t.updated p.raw style own) ++
      p.listEdits style entries (served ++ [t.group?]) ts

/-- The lists for groups that have none on the page, in the order of their first
definitions. -/
def newLists (style : ListStyle) (entries : List ListEntry) (served : List (Option Text)) :
    List Text :=
  ((entries.map (·.group)).eraseDups.filter fun g => !served.contains g).map fun g =>
    newList g style (entries.filter (·.group = g))

/-- The edits that put definitions into the output lists of the page, and into new ones at
its end for groups without a list. -/
def Model.rebuildLists (m : Model) (style : ListStyle) (entries : List ListEntry) : List Edit :=
  let added := newLists style entries (m.lists.map (·.group?))
  m.page.listEdits style entries [] m.lists ++
    if added.isEmpty then [] else [⟨Span.empty m.page.raw.length, added.flatten⟩]

/-! ## 6. The whole page -/

/-- How definitions are written under some options. -/
def Options.listStyle (o : Options) : ListStyle := ⟨o.sortRefs, o.normalizeBodies⟩

/-- The plan for a page, and what there is to say. -/
def Model.plan (m : Model) (o : Options) (mode : Mode) : Plan × List Notice :=
  let chains := m.chains.map (m.chainEdits o)
  let chainEdits := chains.flatMap (·.1)
  let chainNotices := chains.flatMap (·.2)
  match mode with
  | .keep =>
    let kept := m.records.map (m.keepRecord o)
    ({ edits := chainEdits ++ kept.flatMap (·.1) }, chainNotices ++ kept.flatMap (·.2))
  | _ =>
    let moved := m.records.map (m.moveRecord o)
    ({ edits := chainEdits ++ moved.flatMap (·.1.edits) ++
         m.rebuildLists o.listStyle m.listEntries
       movedInline := moved.flatMap (·.1.movedInline)
       movedListed := moved.flatMap (·.1.movedListed) },
      chainNotices ++ moved.flatMap (·.2))

end CiteMarkup
