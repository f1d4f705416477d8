import CiteMarkup.CommandLine.Arguments
import CiteMarkup.Guarded.Transform
import CiteMarkup.Metadata.Extract
import CiteMarkup.Reference.Catalogue
import CiteMarkup.Value.Printer
/-!
# What the program does

Given the text of a page and a request, the program either lists the references of the page
with their metadata or transforms the page and sums up what has changed.
-/

namespace CiteMarkup

/-! ## 1. Line ends -/

/-- The text of a file with every kind of line end made one. -/
def oneLineEnd : Text → Text
  | [] => []
  | c :: r =>
    if c = '\r' then
      if r.head? = some '\n' then oneLineEnd r else '\n' :: oneLineEnd r
    else c :: oneLineEnd r

/-! ## 2. Summaries -/

namespace Value

/-- A text, or null. -/
def ofText? : Option Text → Value
  | some t => .text t
  | none => .null

/-- An object with the given members. -/
def fields (members : List (String × Value)) : Value :=
  .object (members.map fun (k, v) => (k.toList, v))

/-- A list of texts. -/
def texts (ts : List Text) : Value := .list (ts.map .text)

end Value

/-- A change of a name as data. -/
def RenameChange.value (c : RenameChange) : Value :=
  .fields [("from", .text c.old), ("to", .ofText? c.new)]

/-- A reference pointed at another one as data. -/
def DedupeChange.value (c : DedupeChange) : Value :=
  .fields [("from", .text c.old), ("to", .text c.new)]

/-- The changes of a run as data. -/
def Changes.value (c : Changes) : Value :=
  .fields
    [ ("renamed", .list (c.renamed.map (·.value))), ("deduped", .list (c.deduped.map (·.value))),
      ("movedToInline", .texts c.movedInline), ("movedToLdr", .texts c.movedListed) ]

/-- Metadata as data. -/
def Metadata.value (m : Metadata) : Value :=
  .fields
    [ ("last", .ofText? m.last), ("first", .ofText? m.first), ("author", .ofText? m.author),
      ("title", .ofText? m.title), ("work", .ofText? m.work),
      ("publisher", .ofText? m.publisher), ("domain", .ofText? m.domain),
      ("domain_short", .ofText? m.domainShort), ("phrase", .ofText? m.phrase),
      ("year", .ofText? m.year), ("year_ascii", .ofText? m.yearAscii),
      ("text_year", .ofText? m.textYear), ("text_year_ascii", .ofText? m.textYearAscii),
      ("date_ymd", .ofText? m.dateCompact), ("date_display", .ofText? m.dateDisplay) ]

/-- A use of a reference as data: its number, and a place for a mark that callers may set. -/
def useValue (i : Nat) : Value := .fields [("index", .int i), ("anchor", .null)]

/-- A reference with its metadata as data. -/
def Reference.value (rules : Address.Rules) (r : Reference) : Value :=
  .fields
    [ ("id", .text r.id), ("name", .ofText? r.name), ("group", .ofText? r.group),
      ("content_wikitext", .text r.body),
      ("uses", .list ((List.range r.uses).map useValue)),
      ("metadata", (Metadata.ofBody rules r.body).value) ]

/-! ## 3. Options -/

namespace Request

/-- The page comes from standard input: no path is given, or a hyphen. -/
def pagePath? (q : Request) : Option Text :=
  match q.path with
  | none => none
  | some p => if p = ['-'] then none else some p

/-- The options file that has to be read: none for a list of references. -/
def neededOptions? (q : Request) : Option Text :=
  if q.list then none else q.optionsFile.bind Text.nonempty?

/-- The settings in an options file. -/
def settings (path : Text) (file : Except FileFault Text) :
    Except UsageError (Dictionary Setting) :=
  match file with
  | .error fault => .error (.noOptionsFile fault)
  | .ok t =>
    let t := oneLineEnd t
    match Value.ofText t with
    | .error c => .error (.badOptionsFile c t)
    | .ok (.object ms) => .ok (ms.map fun (k, v) => (k, .value v))
    | .ok _ => .error (.noObject path)

/-- The renamings of the command line, unless one is without a value. -/
def renamings (q : Request) : Except UsageError (List (Text × Option Text)) :=
  match q.renames.idxOf? none with
  | some place => .error (.noRenaming place)
  | none => .ok (q.renames.filterMap id)

/-- The options with those of the command line put over them, `renamings` and `names` being
the renamings and the names of lists there. -/
def adjust (q : Request) (renamings : List (Text × Option Text)) (names : List Text)
    (o : Options) : Options :=
  let o := { o with renameMap := o.renameMap.update renamings }
  let o := if q.dedupe then { o with dedupe := true } else o
  let o := match q.minUses, q.location with
    | some (some n), _ => { o with location := .threshold (.int n) }
    | some none, _ => { o with location := .threshold (.list []) }
    | none, some m => { o with location := .value (.text m) }
    | none, none => o
  let o := if q.sort then { o with sortRefs := true } else o
  let o := match q.chains with
    | some on => { o with useChains := some on }
    | none => o
  let o := if q.normalize then { o with normalizeBodies := true } else o
  if names.isEmpty then o else { o with listNames := .many names }

end Request

/-! ## 4. Results -/

/-- Why a request comes to nothing. -/
inductive Failure where
  /-- The command line or the options file is wrong. -/
  | usage (e : UsageError)
  /-- The page cannot be read. -/
  | noPage (fault : FileFault)
  /-- The name of an output list is given without a value. -/
  | noListName
  /-- The transform has stopped with a fault. -/
  | stopped (limits : Limits) (fault : Fault)
  deriving DecidableEq, Repr

/-- The failure in words. -/
def Failure.text : Failure → Text
  | usage e => e.text
  | noPage fault => fault.text
  | noListName => "expected string or bytes-like object, got 'list'".toList
  | stopped limits fault => fault.text limits

/-- What the program writes: to a file if one is named and to standard output otherwise, to
standard error, and to the log. -/
structure Output where
  text : Text
  file : Option Text
  summary : Text
  log : List (Level × Text)
  deriving DecidableEq, Repr

namespace Output

/-- What goes to standard output. -/
def stdout (o : Output) : Text := if o.file.isSome then [] else o.text

end Output

namespace Request

/-- The file that the result is written to. -/
def outputFile? (q : Request) : Option Text := q.output.bind Text.nonempty?

/-- The names of output lists on the command line, unless one is without a value. -/
def namesOfLists (q : Request) : Except Failure (List Text) :=
  if q.listTemplates.contains none then .error .noListName
  else .ok (q.listTemplates.filterMap id)

/-- The list of the references of a page. -/
def listing (q : Request) (rules : Address.Rules) (names : List Text) (page : Text) : Output :=
  let names := if names.isEmpty then defaultListNames else names
  let references := (Reference.catalogue page names).map (·.value rules)
  ⟨(Value.list references).written (.lines 2) ++ ['\n'], q.outputFile?, [], []⟩

/-- The page transformed. -/
def transformed (q : Request) (limits : Limits) (o : Options) (log : List Text) (page : Text) :
    Except Failure Output := do
  let run ← (Guarded.transform limits o q.pagePath? page).mapError (.stopped limits)
  let summary : Value :=
    .fields [("changes", run.changes.value), ("warnings", .texts run.warnings)]
  return ⟨run.text, q.outputFile?, summary.written (.lines 2) ++ ['\n'],
    log.map (Level.warning, ·) ++ run.journal.messages.map fun m => (m.level, m.line)⟩

/-- The options of the file, and the lines of the log about them. -/
def fileOptions (q : Request) (file : Except FileFault Text) :
    Except UsageError (Options × List Text) :=
  match q.neededOptions? with
  | none => .ok ({}, [])
  | some path => (settings path file).map Options.ofDictionary

/-- The result for a page.  `optionsFile` is the options file, if one is needed. -/
def run (q : Request) (page optionsFile : Except FileFault Text) (limits : Limits := {})
    (rules : Address.Rules := {}) : Except Failure Output := do
  let page ← (page.map oneLineEnd).mapError .noPage
  if q.list then return q.listing rules (← q.namesOfLists) page
  else
    let (o, log) ← (q.fileOptions optionsFile).mapError .usage
    let renamings ← q.renamings.mapError .usage
    q.transformed limits (q.adjust renamings (← q.namesOfLists) o) log page

end Request
end CiteMarkup
