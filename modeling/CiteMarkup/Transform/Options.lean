import CiteMarkup.Dictionary
import CiteMarkup.Notice
import CiteMarkup.Token
/-!
# Options of a transform

The options say which references get other names, where bodies are to stand, and in which
form citations are written.  By default nothing changes.
-/

namespace CiteMarkup

/-! ## 1. Where bodies stand -/

/-- Where the bodies of references are to stand. -/
inductive Mode where
  /-- Where they are. -/
  | keep
  /-- In the running text. -/
  | allInline
  /-- In an output list. -/
  | allListed
  /-- In an output list if the reference is used at least so many times. -/
  | threshold (uses : Nat)
  deriving DecidableEq, Repr

/-- A setting as it is given: any value, or a threshold that names any value. -/
inductive Setting where
  | value (v : Value)
  | threshold (uses : Value)

namespace Mode

/-- The modes that have a name. -/
def named : List (Text × Mode) :=
  [("keep".toList, keep), ("all_inline".toList, allInline), ("all_ldr".toList, allListed)]

/-- The threshold that a value gives; two if it gives none. -/
def ofThreshold (v : Value) : Mode × List Notice :=
  match v with
  | .int i => if 1 ≤ i then (threshold i.toNat, []) else (threshold 2, [.badThreshold v])
  | _ => (threshold 2, [.badThreshold v])

/-- The number of uses in an object, under either spelling of its name; zero if there is
none. -/
def usesIn (members : List (Text × Value)) : Value :=
  let given := (Value.object members).member?
  match given "minUsesForLdr".toList <|> given "min_uses_for_ldr".toList with
  | none | some .null => .int 0
  | some v => v

/-- The mode that a setting gives, with what there is to say if it gives none. -/
def ofSetting : Setting → Mode × List Notice
  | .threshold v => ofThreshold v
  | .value v =>
    match v with
    | .null => (keep, [])
    | .text t =>
      if t.isEmpty then (keep, [])
      else match named.lookup t with
        | some m => (m, [])
        | none => (keep, [.unknownMode t])
    | .object members => ofThreshold (usesIn members)
    | .int _ => ofThreshold v
    | _ => (keep, [.unusableMode v])

end Mode

/-! ## 2. Names of output lists -/

/-- The names of output lists as they are given. -/
inductive ListNames where
  | unset
  | one (name : Text)
  | many (names : List Text)
  deriving DecidableEq, Repr

/-- The names of output lists; without any the usual ones. -/
def ListNames.toList : ListNames → List Text
  | unset => defaultListNames
  | one t => if t.isEmpty then defaultListNames else [t]
  | many ts => if ts.isEmpty then defaultListNames else ts

/-! ## 3. Options -/

/-- New names for references; a missing name strips the old one. -/
abbrev Renaming := Dictionary (Option Text)

/-- The options of a transform.  `useChains` has three values: unset leaves each citation in
its form, yes writes citations as chains and joins neighbours, no takes chains apart. -/
structure Options where
  renameMap : Renaming := []
  renameNameless : Renaming := []
  dedupe : Bool := false
  location : Setting := .value (.text "keep".toList)
  sortRefs : Bool := false
  useChains : Option Bool := none
  listNames : ListNames := .many defaultListNames
  normalizeBodies : Bool := false

/-- An option that can be set by name. -/
inductive Field where
  | renameMap
  | renameNameless
  | dedupe
  | location
  | sortRefs
  | useChains
  | listNames
  | normalizeBodies
  deriving DecidableEq, Repr

namespace Field

/-- The options, each with its two spellings. -/
def spellings : List (Field × Text × Text) :=
  [ (renameMap, "renameMap".toList, "rename_map".toList),
    (renameNameless, "renameNameless".toList, "rename_nameless".toList),
    (dedupe, "dedupe".toList, "dedupe".toList),
    (location, "locationMode".toList, "location_mode".toList),
    (sortRefs, "sortRefs".toList, "sort_refs".toList),
    (useChains, "useShorthand".toList, "use_shorthand".toList),
    (listNames, "outputListTemplateNames".toList, "list_template_names".toList),
    (normalizeBodies, "normalizeBodies".toList, "normalize_bodies".toList) ]

/-- The option of a name, in either spelling. -/
def ofName? (name : Text) : Option Field :=
  (spellings.find? fun (_, a, b) => a == name || b == name).map (·.1)

end Field

/-! ## 4. Setting options -/

namespace Setting

/-- The truth value that a setting counts as. -/
def isTrue : Setting → Bool
  | value v => v.isTrue
  | threshold _ => true

/-- Nothing is given. -/
def isNull : Setting → Bool
  | value .null => true
  | _ => false

/-- The new name that a value gives: null strips the old one, and what is no text has no
effect, like the empty text. -/
def newName : Value → Option Text
  | .null => none
  | .text t => some t
  | _ => some []

/-- The new names that a setting gives. -/
def newNames : Setting → Renaming
  | value (.object ms) => Dictionary.ofPairs (ms.map fun (k, v) => (k, newName v))
  | _ => []

/-- The answer yes or no, if the setting gives one. -/
def answer? : Setting → Option Bool
  | value (.bool b) => some b
  | _ => none

/-- The texts among the items of a list. -/
def texts (items : List Value) : List Text :=
  items.filterMap fun
    | .text t => some t
    | _ => none

/-- The names of lists that a setting gives. -/
def listNames : Setting → ListNames
  | value (.list items) => .many (texts items)
  | value (.text t) => .one t
  | _ => .unset

/-- A setting where only a list will do: a text is taken for the list of its characters, and
an object for the list of the names of its members. -/
def itemized : Setting → Setting
  | value (.text t) => value (.list (t.map fun c => .text [c]))
  | value (.object ms) => value (.list (ms.map fun (k, _) => .text k))
  | s => s

end Setting

namespace Options

/-- The options with one of them set. -/
def set (o : Options) (f : Field) (s : Setting) : Options :=
  match f with
  | .renameMap => { o with renameMap := s.newNames }
  | .renameNameless => { o with renameNameless := s.newNames }
  | .dedupe => { o with dedupe := s.isTrue }
  | .location => { o with location := s }
  | .sortRefs => { o with sortRefs := s.isTrue }
  | .useChains => { o with useChains := s.answer? }
  | .listNames => { o with listNames := s.listNames }
  | .normalizeBodies => { o with normalizeBodies := s.isTrue }

/-- The options with the given ones set, whatever their values. -/
def ofSettings (settings : List (Field × Setting)) : Options :=
  settings.foldl (fun o (f, s) => o.set f s) {}

end Options

/-! ## 5. Options by name -/

/-- The line of the log about a name that no option has. -/
def unknownOptionLine (name : Text) : Text :=
  "ignoring unknown transform option ".toList ++ Text.quoted name

/-- The setting of a named option.  What is null is left out, except that chains can be
unset. -/
def Field.given? (f : Field) (s : Setting) : Option (Field × Setting) :=
  if s.isNull && f ≠ .useChains then none
  else some (f, if f = .listNames then s.itemized else s)

/-- The settings that a dictionary of named options gives, and the lines of the log about
names that no option has. -/
def namedSettings (named : Dictionary Setting) : List (Field × Setting) × List Text :=
  (named.filterMap fun (name, s) => (Field.ofName? name).bind (·.given? s),
    (named.filter fun (name, _) => (Field.ofName? name).isNone).map fun (name, _) =>
      unknownOptionLine name)

/-- The options that a dictionary gives, and the lines of the log. -/
def Options.ofDictionary (named : Dictionary Setting) : Options × List Text :=
  let (settings, log) := namedSettings named
  (Options.ofSettings settings, log)

end CiteMarkup
