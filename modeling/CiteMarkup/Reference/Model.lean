import CiteMarkup.Reference.Record
/-!
# The references of a page

The marks of a page are sorted into records, one for each reference.  Named occurrences
belong together if name and group agree; each nameless one is a reference of its own.
Records are numbered in the order in which the page first mentions them.
-/

namespace CiteMarkup

/-! ## 1. Chained citations and lists -/

/-- A chained citation of the page with its entries. -/
structure Chain where
  id : Nat
  template : Template
  entries : List PlacedEntry
  deriving DecidableEq, Repr

namespace Chain

/-- The entries without their places. -/
def plainEntries (c : Chain) : List Entry := c.entries.map (·.toEntry)

/-- The entries that are names. -/
def names (c : Chain) : List PlacedEntry := c.entries.filter (·.isName)

end Chain

/-- The occurrences in a chain, one for each name, all at the place of the chain. -/
def Chain.occurrences (c : Chain) : List Occurrence :=
  c.names.mapIdx fun i e =>
    ⟨c.template.span, .chained c.id i, some e.value, groupAt? c.plainEntries e.index⟩

/-- The stretch of the page that the definitions of an output list stand in. -/
def Template.definitionSpan? (t : Template) : Option Span :=
  (t.param? "refs".toList).bind fun p =>
    if p.value.isEmpty then none
    else some (Span.ofLength (t.paramsStart + p.valueStart) p.value.length)

/-- The definitions in an output list.  One without a group takes the group of the list. -/
def Page.listedIn (p : Page) (t : Template) : List Occurrence :=
  match t.definitionSpan? with
  | none => []
  | some s =>
    (p.refTagsBetween s.start s.stop).filterMap fun tag =>
      match tag.content with
      | .none => none
      | .body text _ =>
        some ⟨tag.span, .listed text tag.group?.isSome, tag.name?,
          tag.group? <|> t.value? "group".toList⟩

/-! ## 2. The marks of a page in turn -/

/-- What the marks of a page amount to: the output lists, the chains, and the occurrences
of references. -/
structure Survey where
  lists : List Template := []
  chains : List Chain := []
  occurrences : List Occurrence := []
  deriving DecidableEq, Repr

/-- The survey with one more mark. -/
def Page.note (p : Page) (s : Survey) : Token → Survey
  | .list t => { s with lists := s.lists ++ [t], occurrences := s.occurrences ++ p.listedIn t }
  | .chain t =>
    let c : Chain := ⟨s.chains.length, t, placedEntries t.paramText⟩
    { s with chains := s.chains ++ [c], occurrences := s.occurrences ++ c.occurrences }
  | .tag t =>
    let form := match t.content with
      | .none => Form.bare
      | .body text _ => Form.full text
    { s with occurrences := s.occurrences ++ [⟨t.span, form, t.name?, t.group?⟩] }
  | .locator _ => s

/-- The survey of a page with output lists of the given names. -/
def Page.survey (p : Page) (listNames : List Text) : Survey :=
  (p.tokens listNames).foldl p.note {}

/-! ## 3. Sorting into records -/

/-- The record with one more occurrence.  A tag with content in the running text is a use and a
definition. -/
def Record.add (r : Record) (o : Occurrence) : Record :=
  if o.isListed then { r with listed := r.listed ++ [o] }
  else { r with
    uses := r.uses ++ [o]
    definitions := if o.isFull then r.definitions ++ [o] else r.definitions
    definitions_eq := by cases h : o.isFull <;> simp [h, r.definitions_eq] }

/-- The record that an occurrence begins. -/
def Record.opening (index : Nat) (key : Text) (o : Occurrence) : Record :=
  Record.add
    { index := index, key := key, name := o.name, group := o.group, uses := [], definitions := []
      listed := [], canonical := index, location := .inline, writtenName := o.name } o

/-- The records with an occurrence sorted in under its key. -/
def sortInto (key : Text) (o : Occurrence) (records : List Record) : List Record :=
  if records.any (·.key == key) then
    records.map fun r => if r.key == key then r.add o else r
  else records ++ [Record.opening records.length key o]

/-- Records from occurrences in turn; `nameless` counts those without a name. -/
def recordsFrom : (nameless : Nat) → List Record → List Occurrence → List Record
  | _, records, [] => records
  | n, records, o :: rest =>
    match identity? o.name o.group with
    | some key => recordsFrom n (sortInto key o records) rest
    | none => recordsFrom (n + 1) (sortInto (namelessIdentity n) o records) rest

/-! ## 4. Models -/

/-- A page with its references, and the templates that a transform may change. -/
structure Model where
  page : Page
  records : List Record
  lists : List Template
  chains : List Chain

namespace Model

/-- The model of a page with output lists of the given names. -/
def ofText (t : Text) (listNames : List Text) : Model :=
  let page := Page.ofText t
  let s := page.survey listNames
  ⟨page, recordsFrom 0 [] (sortByStart Occurrence.start s.occurrences), s.lists, s.chains⟩

/-- The record with number `index`. -/
def record? (m : Model) (index : Nat) : Option Record := m.records.find? (·.index = index)

/-- The record that stands for `r` after at most `steps` steps along the merges. -/
def canonicalFrom (m : Model) : (steps : Nat) → Record → Record
  | 0, r => r
  | n + 1, r =>
    if r.canonical = r.index then r
    else match m.record? r.canonical with
      | some s => m.canonicalFrom n s
      | none => r

/-- The record that stands for `r`: the one it has been merged into, or itself. -/
def canonical (m : Model) (r : Record) : Record := m.canonicalFrom m.records.length r

/-- The records merged into `r`, and `r` itself. -/
def merged (m : Model) (r : Record) : List Record :=
  m.records.filter fun s => (m.canonical s).index = r.index

/-- The uses of a record and of all records merged into it, in the order of the page. -/
def usesOf (m : Model) (r : Record) : List Occurrence :=
  sortByStart Occurrence.start ((m.merged r).flatMap (·.uses))

end Model
end CiteMarkup
