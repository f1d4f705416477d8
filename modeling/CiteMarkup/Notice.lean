import CiteMarkup.Value.Basic
/-!
# Notices and the journal

A transform that cannot do what was asked says so in a notice and goes on.  A notice is a
cause; its wording and the place it is filed under are functions of the cause.  The journal
of a call keeps the notices with the stage in which they came up.
-/

namespace CiteMarkup

/-! ## 1. Causes -/

/-- Why a chained citation stays as it is written although it was to be expanded.  `chain`
is the citation as written. -/
inductive Abstention where
  /-- A parameter has the index of no name. -/
  | unbound (key value chain : Text)
  /-- A name stands for a reference that has lost its name, and a tag cannot take its
  place. -/
  | nameless (name chain : Text)
  /-- A name that has to stay in a chain does not fit there. -/
  | unfit (name chain : Text)
  deriving DecidableEq, Repr

/-- What a transform has to say. -/
inductive Notice where
  /-- No location mode of this name is known. -/
  | unknownMode (name : Text)
  /-- A value that is no location mode at all. -/
  | unusableMode (given : Value)
  /-- A number of uses below one, or no number. -/
  | badThreshold (given : Value)
  /-- A body cannot move into the text, since only chained citations cite it. -/
  | onlyChained (name : Text)
  /-- A body cannot move into the text, since nothing cites it. -/
  | unused (name : Text)
  /-- A reference without a name has its body copied to each of several uses. -/
  | copied (name : Text) (uses : Nat)
  /-- A chained citation stays as it is. -/
  | kept (why : Abstention)
  /-- A citation cannot be made part of a chained one. -/
  | lossy (citation : Text)

/-- How much a message matters. -/
inductive Level where
  | warning
  | debug
  deriving DecidableEq, Repr

/-- The name of a level. -/
def Level.name : Level → Text
  | .warning => "WARNING".toList
  | .debug => "DEBUG".toList

/-! ## 2. Wording -/

/-- The words of an abstention. -/
def Abstention.text : Abstention → Text
  | unbound key value chain =>
    "parameter ".toList ++ assign key value ++ " of ".toList ++ chain ++
      " belongs to no name, leaving it as written".toList
  | nameless name chain =>
    Text.quoted name ++ " in ".toList ++ chain ++
      " has no name to cite it by, leaving the template as written".toList
  | unfit name chain =>
    Text.quoted name ++ " in ".toList ++ chain ++
      " cannot stay in a shorthand template, leaving the template as written".toList
where
  assign (key value : Text) : Text := key ++ '=' :: value

/-- What an abstention is filed under. -/
def Abstention.site : Abstention → Text
  | unbound .. => "shorthand-expand-unbound".toList
  | nameless .. => "shorthand-expand-unnamed".toList
  | unfit .. => "shorthand-expand-unfit".toList

/-- The words of a notice. -/
def Notice.text : Notice → Text
  | unknownMode name =>
    "unknown location mode ".toList ++ Text.quoted name ++ ", keeping locations".toList
  | unusableMode given =>
    "unsupported location mode ".toList ++ given.shown ++ ", keeping locations".toList
  | badThreshold given => "invalid use threshold ".toList ++ given.shown ++ ", using 2".toList
  | onlyChained name =>
    "reference ".toList ++ Text.quoted name ++
      " is only cited through shorthand templates, keeping it list-defined".toList
  | unused name =>
    "reference ".toList ++ Text.quoted name ++ " has no uses, keeping it list-defined".toList
  | copied name uses =>
    "reference ".toList ++ Text.quoted name ++
      " lost its name; copying its body to each of its ".toList ++ Text.ofNat uses ++
      " uses".toList
  | kept why => why.text
  | lossy citation =>
    "cannot combine ".toList ++ citation ++
      " into a shorthand template without losing information, leaving it as written".toList

/-- What a notice is filed under. -/
def Notice.site : Notice → Text
  | unknownMode _ | unusableMode _ => "transform-location-mode".toList
  | badThreshold _ => "transform-threshold".toList
  | onlyChained _ | unused _ => "transform-inline-no-use".toList
  | copied _ _ => "transform-unnamed-copies".toList
  | kept why => why.site
  | lossy _ => "shorthand-collapse-lossy".toList

/-- Only a definition without uses does not matter. -/
def Notice.level : Notice → Level
  | unused _ => .debug
  | _ => .warning

/-! ## 3. The journal -/

/-- A message of a journal.  `detail` may add further lines to it. -/
structure Message where
  level : Level
  text : Text
  detail : Text
  title : Option Text
  stage : Text
  site : Text
  deriving DecidableEq, Repr

/-- Where a message belongs: the title of the page, and the stage if there is one. -/
def Message.place (m : Message) : Text :=
  let page := (m.title.bind Text.nonempty?).getD "<page>".toList
  if m.stage.isEmpty then page else page ++ '/' :: m.stage

/-- The message as a line of the log. -/
def Message.line (m : Message) : Text :=
  let text := if m.detail.isEmpty then m.text else m.text ++ '\n' :: m.detail
  m.place ++ ": ".toList ++ m.level.name ++ ": ".toList ++ text

/-- The messages of one call, in order. -/
structure Journal where
  title : Option Text := none
  stage : Text := []
  messages : List Message := []
  deriving DecidableEq, Repr

namespace Journal

/-- The journal in another stage. -/
def enter (j : Journal) (stage : Text) : Journal := { j with stage := stage }

/-- The journal with one more message. -/
def add (j : Journal) (level : Level) (text detail site : Text) : Journal :=
  { j with messages := j.messages ++ [⟨level, text, detail, j.title, j.stage, site⟩] }

/-- The journal with one more notice. -/
def note (j : Journal) (n : Notice) : Journal := j.add n.level n.text [] n.site

/-- The journal with the notices of a stage. -/
def noteAll (j : Journal) (stage : Text) (notices : List Notice) : Journal :=
  notices.foldl note (j.enter stage)

/-- The messages of a level. -/
def ofLevel (j : Journal) (level : Level) : List Message := j.messages.filter (·.level = level)

/-- The texts of the warnings. -/
def warnings (j : Journal) : List Text := (j.ofLevel .warning).map (·.text)

end Journal
end CiteMarkup
