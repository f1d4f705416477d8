import CiteMarkup.Chain.Joining
import CiteMarkup.Transform.Plan
import CiteMarkup.Transform.Renaming
/-!
# Transforming a page

The stages of a transform in order: reading the page, renaming, merging, deduplication,
placing bodies, planning and carrying out the edits, and joining citations.  A run keeps
what each stage has led to, so that each can be looked at by itself.
-/

namespace CiteMarkup

/-- What has changed for the reader of a page. -/
structure Changes where
  renamed : List RenameChange
  deduped : List DedupeChange
  movedInline : List Text
  movedListed : List Text
  deriving DecidableEq, Repr

/-- A transform of a page, stage by stage. -/
structure Run where
  /-- The page as it was read. -/
  read : Model
  /-- With new names. -/
  renamed : Model
  renames : List RenameChange
  /-- With references of one identity made one. -/
  merged : Model
  /-- With references of one body pointed at the first, if that was asked for. -/
  deduped : Option (Model × List DedupeChange)
  mode : Mode
  /-- With a location for each body. -/
  placed : Model
  plan : Plan
  /-- The text with the edits carried out. -/
  edited : Text
  /-- The text with citations joined, if that was asked for. -/
  joined : Option Text
  journal : Journal

namespace Run

/-- The text that the run ends with. -/
def text (r : Run) : Text := r.joined.getD r.edited

/-- The changes that the run has made. -/
def changes (r : Run) : Changes :=
  ⟨r.renames, (r.deduped.map (·.2)).getD [], r.plan.movedInline, r.plan.movedListed⟩

/-- The texts of the warnings that the run has given. -/
def warnings (r : Run) : List Text := r.journal.warnings

end Run

/-- The transform of a text.  The title of the page stands in messages only. -/
def transform (o : Options) (title : Option Text) (t : Text) : Run :=
  let listNames := o.listNames.toList
  let read := Model.ofText t listNames
  let (renamed, renames) := read.rename o.renameMap o.renameNameless
  let merged := renamed.mergeIdentities
  let deduped := if o.dedupe then some merged.dedupe else none
  let (mode, modeNotices) := Mode.ofSetting o.location
  let (placed, placeNotices) := ((deduped.map (·.1)).getD merged).place mode
  let (plan, planNotices) := placed.plan o mode
  let edited := Edit.applyAll t plan.edits
  let joined := if o.useChains = some true then some (joinCitations edited listNames) else none
  let journal : Journal := { title := title }
  let journal := journal.noteAll "locate".toList (modeNotices ++ placeNotices)
  let journal := journal.noteAll "render".toList planNotices
  let journal := journal.noteAll "shorthand".toList ((joined.map (·.2)).getD [])
  { read, renamed, renames, merged, deduped, mode, placed, plan, edited
    joined := joined.map (·.1)
    journal := journal.enter [] }

end CiteMarkup
