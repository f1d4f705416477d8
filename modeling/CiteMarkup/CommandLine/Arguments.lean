import CiteMarkup.CommandLine.Folder
import CiteMarkup.Text.Blank
import CiteMarkup.Text.Digit
import CiteMarkup.Value.Reader
/-!
# Arguments of the command line

A word of the command line is an option, a value of the option before it, or the path of the
page.  Long options may be cut short as long as they stay unambiguous, and may carry their
value behind a sign of equality; one-letter options may be written together, the last of
them with its value.  Two hyphens in the place of such a value leave the option without
one.
-/

namespace CiteMarkup

/-! ## 1. Options -/

/-- An option of the command line. -/
inductive Switch where
  | help
  | output
  | options
  | rename
  | dedupe
  | location
  | minUses
  | sort
  | chains (on : Bool)
  | normalize
  | listTemplate
  | list
  | verbose
  deriving DecidableEq, Repr

namespace Switch

/-- The spellings of the options in their order. -/
def spellings : List (Text × Switch) :=
  [ ("-h".toList, help), ("--help".toList, help), ("-o".toList, output),
    ("--output".toList, output), ("--options".toList, options), ("--rename".toList, rename),
    ("--dedupe".toList, dedupe), ("--location".toList, location),
    ("--min-uses".toList, minUses), ("--sort".toList, sort),
    ("--shorthand".toList, chains true), ("--no-shorthand".toList, chains false),
    ("--normalize".toList, normalize), ("--list-template".toList, listTemplate),
    ("--list".toList, list), ("--verbose".toList, verbose), ("-v".toList, verbose) ]

/-- The option is followed by a value. -/
def takesValue : Switch → Bool
  | output | options | rename | location | minUses | listTemplate => true
  | help | dedupe | sort | chains _ | normalize | list | verbose => false

/-- Two spellings of one option. -/
def isSame : Switch → Switch → Bool
  | chains _, chains _ => true
  | a, b => a == b

/-- All spellings of an option, as messages name it. -/
def title (s : Switch) : Text :=
  Text.join ['/'] ((spellings.filter fun (_, t) => isSame s t).map (·.1))

/-- The option with a spelling. -/
def ofSpelling? (t : Text) : Option Switch := spellings.lookup t

end Switch

/-! ## 2. Errors -/

/-- What is wrong with a command line, or with the options file that it names. -/
inductive UsageError where
  | ambiguous (word : Text) (spellings : List Text)
  | missingValue (s : Switch)
  | unwantedValue (s : Switch) (value : Text)
  | noAssignment (value : Text)
  | emptyOldName (value : Text)
  | noNumber (value : Text)
  | unknownMode (value : Text) (known : List Text)
  | unknownWords (words : List Text)
  /-- The renaming at this place is given without a value. -/
  | noRenaming (place : Nat)
  | noOptionsFile (fault : FileFault)
  | badOptionsFile (complaint : Complaint) (file : Text)
  | noObject (path : Text)
  deriving DecidableEq, Repr

namespace UsageError

/-- A message about the value of an option. -/
def about (s : Switch) (text : Text) : Text := "argument ".toList ++ s.title ++ ": ".toList ++ text

/-- The error in words. -/
def text : UsageError → Text
  | ambiguous word spellings =>
    "ambiguous option: ".toList ++ word ++ " could match ".toList ++
      Text.join ", ".toList spellings
  | missingValue s => about s "expected one argument".toList
  | unwantedValue s value => about s ("ignored explicit argument ".toList ++ Text.quoted value)
  | noAssignment value => about .rename ("expected OLD=NEW, got ".toList ++ Text.quoted value)
  | emptyOldName value => about .rename ("empty reference name in ".toList ++ Text.quoted value)
  | noNumber value => about .minUses ("invalid int value: ".toList ++ Text.quoted value)
  | unknownMode value known =>
    about .location ("invalid choice: ".toList ++ Text.quoted value ++ " (choose from ".toList ++
      Text.join ", ".toList (known.map Text.quoted) ++ [')'])
  | unknownWords words => "unrecognized arguments: ".toList ++ Text.join [' '] words
  | noRenaming place =>
    "dictionary update sequence element #".toList ++ Text.ofNat place ++
      " has length 0; 2 is required".toList
  | noOptionsFile fault => fault.text
  | badOptionsFile complaint file => complaint.text file
  | noObject path => path ++ ": expected a JSON object".toList

end UsageError

/-! ## 3. Words -/

/-- What options written in one word amount to: those that are complete, with their values;
one that waits for the next word; and what is not understood. -/
structure Cluster where
  complete : List (Switch × Option Text) := []
  waiting : Option Switch := none
  unknown : Option Text := none
  deriving DecidableEq, Repr

/-- A word of the command line. -/
inductive Word where
  /-- A value, or the path of the page. -/
  | plain (t : Text)
  /-- Two hyphens: no options follow. -/
  | separator
  /-- Options, or what is wrong with them. -/
  | options (written : Text) (meaning : Except UsageError Cluster)

/-- The word as it is written. -/
def Word.written : Word → Text
  | plain t => t
  | separator => ['-', '-']
  | options t _ => t

/-- A value written in one word with its option; two hyphens are none. -/
def attached? (value : Text) : Option Text := if value = ['-', '-'] then none else some value

/-- A long option with what stands behind its sign of equality. -/
def Cluster.long (s : Switch) (value : Option Text) : Except UsageError Cluster :=
  match value with
  | none => .ok (if s.takesValue then { waiting := some s } else { complete := [(s, none)] })
  | some v =>
    if s.takesValue then .ok { complete := [(s, attached? v)] } else .error (.unwantedValue s v)

/-- One-letter options written together: `s` has been read with `rest` behind it.  That is
the value of `s` if it takes one, and otherwise begins with the letter of the next option. -/
def Cluster.short (s : Switch) (rest : Text) : Except UsageError Cluster :=
  if s.takesValue then .ok { complete := [(s, attached? rest)] }
  else match rest with
    | [] => .error (.unwantedValue s [])
    | c :: r =>
      match Switch.ofSpelling? ['-', c] with
      | none => .error (.unwantedValue s rest)
      | some next =>
        let more := match r with
          | [] => Cluster.long next none
          | d :: r => Cluster.short next (d :: r)
        more.map fun m => { m with complete := (s, none) :: m.complete }

/-- A word that looks like a negative number is no option. -/
def isNegativeNumber (t : Text) : Bool :=
  let body := if t.getLast? = some '\n' then t.dropLast else t
  match body with
  | '-' :: digits =>
    (!digits.isEmpty && digits.all isDigit) ||
      match Text.splitFirst? '.' digits with
      | some (a, b) => a.all isDigit && !b.isEmpty && b.all isDigit
      | none => false
  | _ => false

/-- The long options that a spelling can be short for. -/
def longCandidates (spelling : Text) : List (Text × Switch) :=
  Switch.spellings.filter fun (t, _) => t.startsWith spelling

/-- A word cut at its first sign of equality. -/
def cutValue (t : Text) : Text × Option Text :=
  match Text.splitFirst? '=' t with
  | some (a, b) => (a, some b)
  | none => (t, none)

/-- An option under its full spelling, with what stands behind its sign of equality. -/
def Cluster.exact (spelling : Text) (s : Switch) (value : Option Text) :
    Except UsageError Cluster :=
  match value with
  | none => Cluster.long s none
  | some v => if spelling.length = 2 then Cluster.short s v else Cluster.long s (some v)

/-- A word that begins with a hyphen but is no option that is known. -/
def Word.unknown (t : Text) : Word :=
  if isNegativeNumber t || t.elem ' ' then .plain t
  else .options t (.ok { unknown := some t })

/-- The meaning of a word before any separator; an error if it is ambiguous. -/
def Word.of (t : Text) : Except UsageError Word :=
  let (spelling, value) := cutValue t
  match t with
  | '-' :: c :: r =>
    match Switch.ofSpelling? t, Switch.ofSpelling? spelling with
    | some s, _ => .ok (.options t (Cluster.exact t s none))
    | none, some s => .ok (.options t (Cluster.exact spelling s value))
    | none, none =>
      if c = '-' then
        match longCandidates spelling with
        | [] => .ok (Word.unknown t)
        | [(_, s)] => .ok (.options t (Cluster.long s value))
        | several => .error (.ambiguous t (several.map (·.1)))
      else match Switch.ofSpelling? ['-', c] with
        | some s => .ok (.options t (Cluster.short s r))
        | none => .ok (Word.unknown t)
  | _ => .ok (.plain t)

/-- The meanings of the words of a command line. -/
def Word.all : List Text → Except UsageError (List Word)
  | [] => .ok []
  | t :: r =>
    if t = ['-', '-'] then .ok (.separator :: r.map .plain)
    else do
      let w ← Word.of t
      let ws ← Word.all r
      return w :: ws

/-! ## 4. Requests -/

/-- What a command line asks for.  An option that may come several times, or whose value is a
number, can be there without a value. -/
structure Request where
  path : Option Text := none
  output : Option Text := none
  optionsFile : Option Text := none
  renames : List (Option (Text × Option Text)) := []
  dedupe : Bool := false
  location : Option Text := none
  minUses : Option (Option Int) := none
  sort : Bool := false
  chains : Option Bool := none
  normalize : Bool := false
  listTemplates : List (Option Text) := []
  list : Bool := false
  verbose : Bool := false
  help : Bool := false
  /-- Words that are not understood. -/
  unknown : List Text := []
  deriving DecidableEq, Repr

/-- The names of the location modes. -/
def modeNames : List Text := ["keep".toList, "all_inline".toList, "all_ldr".toList]

/-- An old name and a new one around the first sign of equality; an empty new name is
none. -/
def readRename (t : Text) : Except UsageError (Text × Option Text) :=
  match Text.splitFirst? '=' t with
  | none => .error (.noAssignment t)
  | some (old, new) => if old.isEmpty then .error (.emptyOldName t)
      else .ok (old, Text.nonempty? new)

/-- Digits with single underscores between them, `afterDigit` saying what stands before. -/
def isDigitRun : (afterDigit : Bool) → Text → Bool
  | afterDigit, [] => afterDigit
  | afterDigit, c :: r =>
      if c = '_' then afterDigit && isDigitRun false r else isDigit c && isDigitRun true r

/-- A blank that may stand around a number: the separators among the controls may not. -/
def isNumberBlank (c : Char) : Bool := isBlank c && !(0x1C ≤ c.toNat && c.toNat ≤ 0x1F)

/-- The most digits that a number can have. -/
def digitLimit : Nat := 4300

/-- A whole number: a sign if any, and digits, with blanks around them. -/
def readInt? (t : Text) : Option Int :=
  let bare := ((t.dropWhile isNumberBlank).reverse.dropWhile isNumberBlank).reverse
  let (negative, run) := match bare with
    | '-' :: r => (true, r)
    | '+' :: r => (false, r)
    | r => (false, r)
  let digits := run.filter (· ≠ '_')
  if isDigitRun false run && digits.length ≤ digitLimit then
    let n : Int := Text.digitsValue digits
    some (if negative then -n else n)
  else none

namespace Request

/-- A value that is checked, if there is one. -/
def reading {α : Type} (read : Text → Except UsageError α) (value : Option Text) :
    Except UsageError (Option α) :=
  match value with
  | none => .ok none
  | some v => (read v).map some

/-- The name of a location mode. -/
def readMode (t : Text) : Except UsageError Text :=
  if modeNames.contains t then .ok t else .error (.unknownMode t modeNames)

/-- A number of uses. -/
def readUses (t : Text) : Except UsageError Int :=
  match readInt? t with
  | some n => .ok n
  | none => .error (.noNumber t)

/-- The request with one more option. -/
def set (q : Request) (s : Switch) (value : Option Text) : Except UsageError Request :=
  match s with
  | .help => .ok { q with help := true }
  | .output => .ok { q with output := value }
  | .options => .ok { q with optionsFile := value }
  | .rename => (reading readRename value).map fun r => { q with renames := q.renames ++ [r] }
  | .dedupe => .ok { q with dedupe := true }
  | .location => (reading readMode value).map fun m => { q with location := m }
  | .minUses => (reading readUses value).map fun n => { q with minUses := some n }
  | .sort => .ok { q with sort := true }
  | .chains on => .ok { q with chains := some on }
  | .normalize => .ok { q with normalize := true }
  | .listTemplate => .ok { q with listTemplates := q.listTemplates ++ [value] }
  | .list => .ok { q with list := true }
  | .verbose => .ok { q with verbose := true }

/-- The request with several more options. -/
def setAll (q : Request) (entries : List (Switch × Option Text)) : Except UsageError Request :=
  entries.foldlM (fun q (s, v) => q.set s v) q

/-- The request with a word that is not understood. -/
def leave (q : Request) (words : List Text) : Request := { q with unknown := q.unknown ++ words }

/-- The request with the words of a command line read into it.  The first plain word that is
no value of an option is the path. -/
def readFrom (q : Request) : List Word → Except UsageError Request
  | [] => .ok q
  | .plain t :: .separator :: r =>
    if q.path.isNone then readFrom { q with path := some t } r
    else .ok (q.leave (t :: ['-', '-'] :: r.map Word.written))
  | .plain t :: r =>
    if q.path.isNone then readFrom { q with path := some t } r else readFrom (q.leave [t]) r
  | .separator :: r =>
    if q.path.isNone then readFrom q r else .ok (q.leave (['-', '-'] :: r.map Word.written))
  | .options _ meaning :: r => do
    let c ← meaning
    match c.waiting with
    | none => readFrom ((← q.setAll c.complete).leave c.unknown.toList) r
    | some s =>
      match r with
      | .plain v :: r => readFrom (← q.setAll (c.complete ++ [(s, some v)])) r
      | _ => .error (.missingValue s)

/-- What a command line asks for. -/
def ofWords (words : List Text) : Except UsageError Request := do
  let q ← readFrom {} (← Word.all words)
  if q.unknown.isEmpty || q.help then return q else .error (.unknownWords q.unknown)

end Request
end CiteMarkup
