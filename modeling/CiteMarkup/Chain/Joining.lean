import CiteMarkup.Chain.Locator
import CiteMarkup.Edit
import CiteMarkup.Notice
/-!
# Joining citations into chains

Citations that stand next to each other are written as one chained citation.  A run of them
is joined as a whole or stays as it is: it must not go over a line end, and each citation in
it must be one that a chain can express.
-/

namespace CiteMarkup

/-! ## 1. Links of a chain -/

/-- A name of a chain with what is said about it. -/
structure Link where
  name : Text
  group : Option Text := none
  page : Option Text := none
  pages : Option Text := none
  place : Option Text := none
  deriving DecidableEq, Repr

/-- A parameter of the link at position `i`, unless its value is missing or empty. -/
def linkParam? (key : Text) (i : Nat) (value : Option Text) : Option Text :=
  (value.bind Text.nonempty?).map (assignment (key ++ indexSuffix i))

/-- The parameters of the link at position `i`, after `count` names without a key. -/
def Link.params (l : Link) (i count : Nat) : List Text :=
  nameParam l.name i count ::
    [ linkParam? "group".toList i l.group, linkParam? "p".toList i l.page,
      linkParam? "pp".toList i l.pages, linkParam? "loc".toList i l.place ].filterMap id

/-- The parameters of links from position `i` on. -/
def linkParamsFrom : (i count : Nat) → List Link → List Text
  | _, _, [] => []
  | i, count, l :: r =>
    l.params i count ++
      linkParamsFrom (i + 1) (if needsNoKey l.name i count then count + 1 else count) r

/-- The chained citation with the given links. -/
def writeLinks (links : List Link) : Text :=
  writeTemplate chainName (linkParamsFrom 1 0 links)

/-- The value of the entry with a role and an index. -/
def valueAt? (entries : List Entry) (role : Role) (index : Nat) : Option Text :=
  (entries.find? fun e => e.role = role && e.index = index).map (·.value)

/-- The entries of a chain can be read as links: there are names, each position is taken
once, and every other entry has a known role, belongs to a name, and is the only one of its
role there. -/
def areLinks (entries : List Entry) : Bool :=
  let positions := (entries.filter (·.isName)).map (·.index)
  let parts := entries.filter (!·.isName)
  let keys := parts.map fun e => (e.role, e.index)
  !positions.isEmpty && positions.eraseDups.length = positions.length &&
    parts.all (fun e => e.role ≠ .other && positions.contains e.index) &&
    keys.eraseDups.length = keys.length

/-- The links of a chained citation, unless something in it would be lost. -/
def links? (paramText : Text) : Option (List Link) :=
  let entries := (placedEntries paramText).map (·.toEntry)
  if areLinks entries then
    some ((entries.filter (·.isName)).map fun e =>
      { name := e.value
        group := valueAt? entries .group e.index
        page := valueAt? entries .page e.index
        pages := valueAt? entries .pages e.index
        place := valueAt? entries .place e.index })
  else none

/-- Two statements of the same kind put together: none if they differ. -/
def agree? (old new : Option Text) : Option (Option Text) :=
  match new.bind Text.nonempty? with
  | none => some old
  | some v =>
    match old.bind Text.nonempty? with
    | none => some (some v)
    | some w => if w = v then some old else none

/-- The link with what a locator says about it, unless the two disagree. -/
def Link.locate? (l : Link) (at_ : Locator) : Option Link := do
  let page ← agree? l.page at_.page
  let pages ← agree? l.pages at_.pages
  let place ← agree? l.place at_.place
  let group ← agree? l.group at_.group
  return { l with page := page, pages := pages, place := place, group := group }

/-! ## 2. Units -/

/-- A citation: a tag without content, or a chain. -/
inductive Cite where
  | tag (t : RefTag)
  | chain (t : Template)
  deriving DecidableEq, Repr

/-- A citation with the locator right behind it. -/
structure CiteUnit where
  cite : Cite
  locator : Option Template
  deriving DecidableEq, Repr

/-- The stretch of the page that a citation takes up. -/
def Cite.span : Cite → Span
  | tag t => t.span
  | chain t => t.span

/-- The stretch of the page that a unit takes up. -/
def CiteUnit.span (u : CiteUnit) : Span :=
  match u.locator with
  | some t => u.cite.span.hull t.span
  | none => u.cite.span

/-- The links that a citation is written as, unless a chain cannot express it. -/
def Cite.links? : Cite → Option (List Link)
  | tag t =>
    if t.attributes.all fun (k, _) => k = "name".toList || k = "group".toList then
      t.name?.map fun n => [{ name := n, group := t.group? }]
    else none
  | chain t => CiteMarkup.links? t.paramText

/-- The last link of a list with a locator put to it. -/
def locateLast? (at_ : Locator) : List Link → Option (List Link)
  | [] => none
  | [l] => (l.locate? at_).map fun l => [l]
  | l :: m :: r => (locateLast? at_ (m :: r)).map (l :: ·)

/-- The links that a unit is written as, unless a chain cannot express it. -/
def CiteUnit.links? (u : CiteUnit) : Option (List Link) := do
  let links ← u.cite.links?
  match u.locator with
  | none => return links
  | some t =>
    let l := Locator.ofText t.paramText
    if l.hasOther then none else locateLast? l links

/-! ## 3. Runs -/

/-- Only spaces and tabs stand between two offsets of a text. -/
def isGapBetween (t : Text) (a b : Nat) : Bool := a ≤ b && (t.slice a b).all isGap

/-- The citation that a token is, if it can be part of a run.  A name that does not fit into
a chain keeps its tag apart. -/
def Token.cite? : Token → Option Cite
  | .tag t => if !t.isFull && t.name?.all fitsChain then some (.tag t) else none
  | .chain t => some (.chain t)
  | _ => none

/-- The locator that the tokens begin with, if it stands right behind offset `stop`. -/
def locatorBehind? (seen : Text) (stop : Nat) : List Token → Option Template
  | .locator t :: _ => if isGapBetween seen stop t.span.start then some t else none
  | _ => none

/-- The units among the tokens, with nothing in the place of a token that ends a run.
`taken` says that the first token is the locator of a unit already. -/
def unitsFrom (seen : Text) : (taken : Bool) → List Token → List (Option CiteUnit)
  | _, [] => []
  | true, _ :: r => unitsFrom seen false r
  | false, t :: r =>
    match t.cite? with
    | none => none :: unitsFrom seen false r
    | some c =>
      let l := locatorBehind? seen c.span.stop r
      some ⟨c, l⟩ :: unitsFrom seen l.isSome r

/-- The runs among units: stretches with gaps only.  `run` is the run in progress, last unit
first. -/
def runsFrom (seen : Text) : (run : List CiteUnit) → List (Option CiteUnit) → List (List CiteUnit)
  | run, [] => if run.isEmpty then [] else [run.reverse]
  | run, none :: r => if run.isEmpty then runsFrom seen [] r else run.reverse :: runsFrom seen [] r
  | run, some u :: r =>
    match run with
    | [] => runsFrom seen [u] r
    | v :: _ =>
      if isGapBetween seen v.span.stop u.span.start then runsFrom seen (u :: run) r
      else run.reverse :: runsFrom seen [u] r

/-- The runs of citations on a page. -/
def Page.runs (p : Page) (listNames : List Text) : List (List CiteUnit) :=
  runsFrom p.seen [] (unitsFrom p.seen false (p.tokens listNames))

/-- The stretch of the page that a run takes up. -/
def runSpan? : List CiteUnit → Option Span
  | [] => none
  | u :: r => some (u.span.hull ((r.getLast?.getD u).span))

/-- There is something to join: several units, or one with a locator. -/
def isJoinable : List CiteUnit → Bool
  | [u] => u.locator.isSome
  | us => 2 ≤ us.length

/-- The links of a run, or the first unit that a chain cannot express. -/
def runLinks : List CiteUnit → Except CiteUnit (List Link)
  | [] => .ok []
  | u :: r =>
    match u.links? with
    | none => .error u
    | some links => (runLinks r).map (links ++ ·)

/-! ## 4. Joining -/

/-- The edit that joins a run, or what there is to say instead. -/
def joinRun (page : Text) (run : List CiteUnit) : List Edit × List Notice :=
  match runSpan? run with
  | none => ([], [])
  | some span =>
    let written := page.cut span
    if !isJoinable run || written.elem '\n' then ([], [])
    else match runLinks run with
      | .error u => ([], [.lossy (page.cut u.span)])
      | .ok links =>
        let chain := writeLinks links
        (if chain = written then [] else [⟨span, chain⟩], [])

/-- The text with every run of citations joined into a chain, and what there is to say. -/
def joinCitations (t : Text) (listNames : List Text) : Text × List Notice :=
  let results := ((Page.ofText t).runs listNames).map (joinRun t)
  (Edit.applyAll t (results.flatMap (·.1)), results.flatMap (·.2))

end CiteMarkup
