import CiteMarkup.Guarded.Chain
import CiteMarkup.Proofs.Chain.Runs
import CiteMarkup.Proofs.Guarded.Limits
/-!
# Changes to chains

A body is asked for only where the reference has one, a chain is written only where a name is
left to write, and a run of citations ends behind its beginning.  All that a chain needs is a
target for each of its names, and positions that can be written if it is written anew with its
own (`Chain.writtenPositions`).
-/

namespace CiteMarkup

/-- New names do not move entries. -/
theorem index_withNames : ∀ (entries : List Entry) (targets : List Target),
    (withNames entries targets).map (·.index) = entries.map (·.index)
  | [], _ => rfl
  | e :: es, targets => by
    unfold withNames
    split
    · cases targets <;> rw [List.map_cons, List.map_cons, index_withNames]
    · rw [List.map_cons, List.map_cons, index_withNames]

namespace Chain

/-- The names of the chain cannot be replaced in place: one without a key would be read as key
and value. -/
def isRebuilt (c : Chain) (targets : List Target) : Bool :=
  (renamedNames c targets).any fun (e, n) => e.key.isNone && n.elem '='

/-- The positions that are written if the chain stays one and its names are replaced. -/
def renamedPositions (c : Chain) (targets : List Target) : List Nat :=
  if c.isRebuilt targets then CiteMarkup.writtenPositions 0 (withNames c.plainEntries targets)
  else []

/-- The positions that are written in the place of the chain. -/
def writtenPositions (c : Chain) (useChains : Option Bool) (targets : List Target) : List Nat :=
  if c.isToExpand useChains targets then [] else c.renamedPositions targets

/-- A position that is written in the place of a chain is one of the chain. -/
theorem index_of_mem_positions {c : Chain} {useChains : Option Bool} {targets : List Target}
    {i : Nat} (h : i ∈ c.writtenPositions useChains targets) : ∃ e ∈ c.entries, e.index = i := by
  unfold writtenPositions renamedPositions at h
  split at h
  · cases h
  · split at h
    · obtain ⟨e, he, rfl⟩ := index_of_mem_writtenPositions h
      have hindex : e.index ∈ c.plainEntries.map (·.index) :=
        index_withNames c.plainEntries targets ▸ List.mem_map_of_mem he
      obtain ⟨e', he', heq⟩ := List.mem_map.mp hindex
      obtain ⟨placed, hplaced, rfl⟩ := List.mem_map.mp he'
      exact ⟨placed, hplaced, heq⟩
    · cases h

end Chain

namespace Guarded

variable {limits : Limits} {targets : List Target} {c : CiteMarkup.Chain}

/-! ## 1. Expansion -/

/-- **A tag without a name finds its body**: without one the chain has refused before. -/
theorem expandName_ok (chainText : Text) (name : Entry) (bound : List Entry) (target : Target) :
    expandName chainText name bound target =
      .ok (CiteMarkup.expandName chainText name bound target) := by
  unfold expandName CiteMarkup.expandName
  cases hlossy : isUnconvertible bound with
  | true =>
    cases hname : target.name with
    | none =>
      simp only [Option.isNone_none, Bool.true_or, Bool.and_true, if_true]
      rfl
    | some n =>
      simp only [Option.isNone_some, Bool.false_and, Bool.false_eq_true, if_false, if_true]
      split <;> rfl
  | false =>
    cases hname : target.name with
    | some n => rfl
    | none => cases hbody : target.body.bind Text.nonempty? <;> rfl

theorem expandNames_ok (chainText : Text) : ∀ l : List ((Entry × List Entry) × Target),
    expandNames chainText l = .ok (l.mapM fun ((name, own), target) =>
      CiteMarkup.expandName chainText name own target)
  | [] => rfl
  | ((name, own), target) :: rest => by
    rw [expandNames, expandName_ok, ok_bind, List.mapM_cons]
    dsimp only
    cases CiteMarkup.expandName chainText name own target with
    | error why => rfl
    | ok piece =>
      dsimp only
      rw [expandNames_ok chainText rest, ok_bind]
      cases rest.mapM fun ((name, own), target) =>
        CiteMarkup.expandName chainText name own target <;> rfl

/-- Names have positions. -/
theorem namePositions_ne_nil {entries : List Entry} (h : entries.any Entry.isName = true) :
    namePositions entries ≠ [] := by
  have hgrow : ∀ (es : List Entry) (found : List Nat), found ≠ [] → es.foldl
      (fun found e => if found.contains e.index then found else found ++ [e.index]) found ≠ [] := by
    intro es
    induction es with
    | nil => exact fun _ hne => hne
    | cons e es ih =>
      intro found hne
      rw [List.foldl_cons]
      refine ih _ ?_
      split
      · exact hne
      · simp
  obtain ⟨e, he, hname⟩ := List.any_eq_true.mp h
  have hmem : e ∈ entries.filter Entry.isName := List.mem_filter.mpr ⟨he, hname⟩
  rw [namePositions]
  cases hfilter : entries.filter Entry.isName with
  | nil =>
    rw [hfilter] at hmem
    cases hmem
  | cons first rest =>
    rw [List.foldl_cons]
    exact hgrow rest _ (by simp)

/-- **What waits is written if it holds a name.** -/
theorem flush_ok (template : Text) (waiting : List Entry) :
    flush template waiting = .ok ((writeRenumbered? template waiting).getD []) := by
  unfold flush writeRenumbered?
  split
  · rename_i hname
    rw [List.getLast?_eq_some_getLast (namePositions_ne_nil hname), get_some, ok_bind]
    rfl
  · rfl

theorem joinPieces_ok (template : Text) : ∀ (pieces : List Piece) (waiting : List Entry),
    joinPieces template waiting pieces = .ok (CiteMarkup.joinPieces template waiting pieces)
  | [], waiting => flush_ok template waiting
  | .chained entries :: r, waiting => joinPieces_ok template r (waiting ++ entries)
  | .text t :: r, waiting => by
    rw [joinPieces, flush_ok, ok_bind, joinPieces_ok template r []]
    rfl

theorem expand_ok (h : c.admits targets = true) :
    expand c targets = .ok (c.expand targets) := by
  unfold expand CiteMarkup.Chain.expand
  rw [check, if_pos h, ok_bind]
  dsimp only
  cases unboundEntry? c.plainEntries with
  | some e => rfl
  | none =>
    dsimp only
    rw [expandNames_ok, ok_bind]
    cases ((bindEntries (c.plainEntries.filter (·.isName)) c.plainEntries).zip targets).mapM
        fun ((name, own), target) =>
          CiteMarkup.expandName c.template.written name own target with
    | error why => rfl
    | ok pieces =>
      dsimp only
      change _ = Except.ok (Except.ok (if pieces.isEmpty then none
        else some (CiteMarkup.joinPieces c.template.chainName [] pieces)))
      rw [joinPieces_ok]
      cases pieces.isEmpty <;> rfl

/-! ## 2. Renaming -/

/-- **Each name takes its target.** -/
theorem withNames_ok : ∀ {entries : List Entry} {targets : List Target},
    (∀ target ∈ targets, target.name.isSome) →
    targets.length = (entries.filter (·.isName)).length →
    withNames entries targets = .ok (CiteMarkup.withNames entries targets)
  | [], _, _, _ => rfl
  | e :: es, targets, hnamed, hlength => by
    unfold withNames CiteMarkup.withNames
    rw [List.filter_cons] at hlength
    cases hname : e.isName with
    | false =>
      rw [hname, if_neg Bool.false_ne_true] at hlength
      rw [if_neg Bool.false_ne_true, if_neg Bool.false_ne_true, withNames_ok hnamed hlength]
      rfl
    | true =>
      rw [hname, if_pos rfl, List.length_cons] at hlength
      rw [if_pos rfl, if_pos rfl]
      cases targets with
      | nil => cases hlength
      | cons target rest =>
        obtain ⟨n, hn⟩ := Option.isSome_iff_exists.mp (hnamed target List.mem_cons_self)
        have hrest := withNames_ok (fun t ht => hnamed t (List.mem_cons_of_mem _ ht))
          (Nat.succ.inj hlength)
        dsimp only
        rw [hn, get_some, ok_bind, hrest]
        rfl

/-- New names leave the names of a chain names. -/
theorem any_withNames : ∀ (entries : List Entry) (targets : List Target),
    (CiteMarkup.withNames entries targets).any Entry.isName = entries.any Entry.isName
  | [], _ => rfl
  | e :: es, targets => by
    unfold CiteMarkup.withNames
    split
    · cases targets with
      | nil => rw [List.any_cons, List.any_cons, any_withNames]
      | cons t ts =>
        rw [List.any_cons, List.any_cons, any_withNames]
        rfl
    · rw [List.any_cons, List.any_cons, any_withNames]

/-- To read the names of all targets and to look for those that differ is to look for new
names. -/
theorem renamed_eq {pairs : List (PlacedEntry × Target)} (h : ∀ x ∈ pairs, x.2.name.isSome) :
    (pairs.map fun x => (x.1, x.2.name.getD [])).filter (fun x => x.2 ≠ x.1.value) =
      pairs.filterMap fun (e, t) =>
        match t.name with
        | some n => if n ≠ e.value then some (e, n) else none
        | none => none := by
  induction pairs with
  | nil => rfl
  | cons x pairs ih =>
    obtain ⟨e, target⟩ := x
    obtain ⟨n, hn⟩ := Option.isSome_iff_exists.mp (h _ List.mem_cons_self)
    dsimp only at hn
    rw [List.map_cons, List.filter_cons, List.filterMap_cons,
      ih fun y hy => h y (List.mem_cons_of_mem _ hy)]
    dsimp only
    rw [hn]
    by_cases heq : n = e.value <;> simp [heq]

/-- **A chain that stays one has a name for each target**, and what is written anew holds a
name.  So only its positions can be in the way. -/
theorem renamingEdits_within (limits : Limits) (hadmits : c.admits targets = true)
    (hnamed : ∀ target ∈ targets, target.name.isSome) :
    Within (renamingEdits limits c targets) (c.renamingEdits targets)
      (∀ i ∈ c.renamedPositions targets, limits.admits i) := by
  have hlength : targets.length = c.names.length := of_decide_eq_true hadmits
  have hpairs : ∀ x ∈ c.names.zip targets, x.2.name.isSome := fun x hx =>
    hnamed x.2 (List.of_mem_zip hx).2
  have hread : ∀ x ∈ c.names.zip targets,
      (do return (x.1, ← get .noName x.2.name) : Guarded (PlacedEntry × Text)) =
        .ok (x.1, x.2.name.getD []) := by
    intro x hx
    obtain ⟨n, hn⟩ := Option.isSome_iff_exists.mp (hpairs x hx)
    rw [hn]
    rfl
  have hentries : targets.length = (c.plainEntries.filter (·.isName)).length := by
    rw [hlength, Chain.names, Chain.plainEntries, List.filter_map, List.length_map]
    rfl
  have hchanged : ((c.names.zip targets).map fun x => (x.1, x.2.name.getD [])).filter
      (fun x => x.2 ≠ x.1.value) = renamedNames c targets := renamed_eq hpairs
  unfold renamingEdits CiteMarkup.Chain.renamingEdits Chain.renamedPositions
  rw [mapM_eq_map hread, ok_bind]
  dsimp only
  rw [hchanged]
  change Within (if c.isRebuilt targets then _ else _) (if c.isRebuilt targets then _ else _) _
  by_cases hrebuilt : c.isRebuilt targets = true
  · -- something has changed, so the chain has a name
    have hany : c.plainEntries.any Entry.isName = true := by
      obtain ⟨x, hx, -⟩ := List.any_eq_true.mp hrebuilt
      obtain ⟨y, hy, -⟩ := List.mem_filterMap.mp hx
      obtain ⟨hmem, hname⟩ := List.mem_filter.mp (List.of_mem_zip hy).1
      exact List.any_eq_true.mpr ⟨y.1.toEntry, List.mem_map_of_mem hmem, hname⟩
    have hwritten : (CiteMarkup.withNames c.plainEntries targets).any Entry.isName = true := by
      rw [any_withNames, hany]
    have hchain := writeChain_within limits c.template.chainName
      (CiteMarkup.withNames c.plainEntries targets)
    rw [CiteMarkup.writeChain?, if_pos hwritten] at hchain
    rw [if_pos hrebuilt, if_pos hrebuilt, if_pos hrebuilt, withNames_ok hnamed hentries, ok_bind,
      CiteMarkup.writeChain?, if_pos hwritten]
    have hwrite := hchain.bind (f := fun w => get .noChain w >>= fun text =>
      return [(⟨c.template.span, text⟩ : Edit)]) (Within.of_ok rfl)
    refine hwrite.congr ?_
    simp [hwritten]
  · rw [if_neg hrebuilt, if_neg hrebuilt, if_neg hrebuilt]
    exact (Within.of_ok rfl).congr (by simp)

/-- **The edits to a chain need a target for each name**, and positions that can be written. -/
theorem chainEdits_within (limits : Limits) (hadmits : c.admits targets = true)
    (useChains : Option Bool) :
    Within (chainEdits limits c useChains targets) (c.edits useChains targets)
      (∀ i ∈ c.writtenPositions useChains targets, limits.admits i) := by
  unfold chainEdits CiteMarkup.Chain.edits Chain.writtenPositions Chain.isToExpand
  cases hnames : c.names.isEmpty with
  | true =>
    have hnil : c.names = [] := List.isEmpty_iff.mp hnames
    have hnone : renamedNames c targets = [] := by rw [renamedNames, hnil]; rfl
    have hkept : c.renamingEdits targets = [] := by rw [Chain.renamingEdits, hnone]; rfl
    rw [hkept]
    exact (Within.of_ok rfl).congr (by simp [Chain.renamedPositions, Chain.isRebuilt, hnone])
  | false =>
    cases hmust : mustExpand useChains targets with
    | true =>
      rw [expand_ok hadmits]
      refine (Within.of_ok ?_).congr (by simp)
      cases hexpand : c.expand targets with
      | error why => rfl
      | ok text => cases text <;> rfl
    | false =>
      have hfits : ∀ target ∈ targets, target.name.any fitsChain = true := by
        intro target ht
        rw [mustExpand, Bool.or_eq_false_iff, List.any_eq_false] at hmust
        simpa using hmust.2 target ht
      have hnamed : ∀ target ∈ targets, target.name.isSome := by
        intro target ht
        cases hname : target.name with
        | none => simpa [hname] using hfits target ht
        | some n => rfl
      exact (renamingEdits_within limits hadmits hnamed).map (·, [])

/-! ## 3. Edits -/

theorem edit_ok (e : Edit) : edit e.span.start e.span.stop e.text = .ok e := by
  have hle : (e.span.start : Int) ≤ e.span.stop := Int.ofNat_le.mpr e.span.ordered
  simp [edit, Edit.ofOffsets?, e.span.ordered]

/-- An edit that ends before it begins is a fault. -/
example : edit 2 1 [] = .error (.badSpan 2 1) := by decide

theorem applyAll_ok (t : Text) (edits : List Edit) :
    applyAll t edits = .ok (Edit.applyAll t edits) := by
  rw [applyAll, mapM_eq_map (g := id) fun e _ => edit_ok e, List.map_id]
  rfl

/-! ## 4. Joining -/

/-- A citation that a chain can express has links. -/
theorem links_ne_nil {cite : Cite} {links : List Link} (h : cite.links? = some links) :
    links ≠ [] := by
  rintro rfl
  cases cite with
  | tag t =>
    rw [Cite.links?] at h
    split at h
    · obtain ⟨n, -, hlinks⟩ := Option.map_eq_some_iff.mp h
      cases hlinks
    · cases h
  | chain t =>
    rw [Cite.links?, CiteMarkup.links?] at h
    split at h
    · rename_i hlinks
      have hnil := List.map_eq_nil_iff.mp (Option.some.inj h)
      rw [areLinks, hnil] at hlinks
      cases hlinks
    · cases h

/-- **A locator finds a link to go to.** -/
theorem unitLinks_ok (u : CiteUnit) : unitLinks u = .ok u.links? := by
  unfold unitLinks CiteUnit.links?
  cases hlinks : u.cite.links? with
  | none => rfl
  | some links =>
    cases u.locator with
    | none => rfl
    | some t =>
      dsimp only
      cases (Locator.ofText t.paramText).hasOther with
      | true => rfl
      | false =>
        rw [List.getLast?_eq_some_getLast (links_ne_nil hlinks)]
        rfl

theorem runLinks_ok : ∀ run : List CiteUnit, runLinks run = .ok (CiteMarkup.runLinks run)
  | [] => rfl
  | u :: r => by
    rw [runLinks, unitLinks_ok, ok_bind, CiteMarkup.runLinks]
    cases u.links? with
    | none => rfl
    | some links =>
      dsimp only
      rw [runLinks_ok r, ok_bind]
      cases CiteMarkup.runLinks r <;> rfl

section Runs

variable {seen : Text} {run : List CiteUnit} {u : CiteUnit}

/-- What a chain cannot express is in the run. -/
theorem mem_of_runLinks_error :
    ∀ {run : List CiteUnit}, CiteMarkup.runLinks run = .error u → u ∈ run
  | [], h => by cases h
  | v :: r, h => by
    rw [CiteMarkup.runLinks] at h
    cases hv : v.links? with
    | none =>
      rw [hv] at h
      obtain rfl := Except.error.inj h
      exact List.mem_cons_self
    | some links =>
      rw [hv] at h
      cases hr : CiteMarkup.runLinks r with
      | ok rest =>
        rw [hr] at h
        cases h
      | error w =>
        rw [hr] at h
        have hw : w = u := Except.error.inj h
        rw [hw] at hr
        exact List.mem_cons_of_mem _ (mem_of_runLinks_error hr)

theorem unitStop_eq (u : CiteUnit) : unitStop u = u.last.span.stop := by
  unfold unitStop CiteUnit.last
  cases u.locator with
  | none => exact congrArg Span.stop (CiteUnit.span_token u.cite).symm
  | some t => rfl

/-- **A run ends behind its beginning.** -/
theorem joinRun_ok (page : Text) (h : IsRun seen run) :
    joinRun page run = .ok (CiteMarkup.joinRun page run) := by
  obtain ⟨span, first, last, hspan, hfirst, hlast, hstart, hstop⟩ := h.span_eq
  have hwritten : page.slice first.cite.span.start (unitStop last) = page.cut span := by
    rw [unitStop_eq, ← hstart, ← hstop, Text.cut]
  have hedit : ∀ chain, edit first.cite.span.start (unitStop last) chain = .ok ⟨span, chain⟩ := by
    intro chain
    rw [unitStop_eq, ← hstart, ← hstop]
    exact edit_ok ⟨span, chain⟩
  have hunit : ∀ u ∈ run, page.slice u.cite.span.start (unitStop u) = page.cut u.span := by
    intro u hu
    rw [unitStop_eq, Text.cut, (h.units u hu).start_eq, (h.units u hu).stop_eq]
  unfold joinRun CiteMarkup.joinRun
  rw [hfirst, hlast, hspan]
  simp only [get_some, ok_bind, hwritten]
  split
  · rfl
  · rw [runLinks_ok, ok_bind]
    cases hlinks : CiteMarkup.runLinks run with
    | error u =>
      dsimp only
      rw [hunit u (mem_of_runLinks_error hlinks)]
      rfl
    | ok links =>
      dsimp only
      split
      · rfl
      · rw [hedit]
        rfl

theorem joinCitations_ok (t : Text) (listNames : List Text) :
    joinCitations t listNames = .ok (CiteMarkup.joinCitations t listNames) := by
  have hruns : ∀ run ∈ (Page.ofText t).runs listNames,
      joinRun t run = .ok (CiteMarkup.joinRun t run) := fun run hrun =>
    joinRun_ok t (isRun_of_mem_runs hrun)
  rw [joinCitations, page_ok, ok_bind, tokens_ok, ok_bind]
  change (List.mapM _ ((Page.ofText t).runs listNames) >>= _) = _
  rw [mapM_eq_map hruns, ok_bind, applyAll_ok, ok_bind]
  rfl

end Runs

end Guarded
end CiteMarkup
