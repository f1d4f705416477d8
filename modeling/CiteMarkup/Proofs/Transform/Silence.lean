import CiteMarkup.Proofs.Transform.Filing
import CiteMarkup.Proofs.Transform.Keeping
/-!
# A transform without options

Without options no stage before the plan changes anything: the records are those of the page
as read, each with a location (`placed_default`), and nothing has been said.  So the text comes
out as it went in exactly if the plan is empty.

It need not be.  A page is plain if each occurrence has the name of its reference and each name
in a chain fits there (`Model.Plain`), and on plain pages, and on no others, a transform
without options is silent (`silent_iff_plain`).  A page is plain if its names and groups are
told apart by their identities and the names in its chains fit there
(`Model.IsFiled.plain`).  Two references whose identities are written alike are one record, and
then one of them is written under the name of the other (`renamed_without_options`).
-/

namespace CiteMarkup

/-! ## 1. Renaming and merging -/

theorem renameAll_nil : ∀ (n : Nat) (records : List Record),
    renameAll [] [] n records = records.map fun r => ⟨r, false, none⟩
  | n, [] => rfl
  | n, r :: rs => by
    have hone : renameOne [] [] n r = (⟨r, false, none⟩, n) := by
      cases hname : r.name <;> simp [renameOne, newNameOf?, Dictionary.get?, hname]
    rw [renameAll, hone, List.map_cons, ← renameAll_nil n rs]

/-- Without new names nothing is renamed. -/
theorem Model.rename_nil (m : Model) : m.rename [] [] = (m, []) := by
  have heffective : effective [] = [] := rfl
  have hspare : spareNames [] m.records = [] := rfl
  rw [rename, heffective, hspare, renameAll_nil, handOut_nil]
  simp [Function.comp_def]

theorem foldl_mergeInto_eq : ∀ {l records : List Record},
    ((records ++ l).map (·.key)).Nodup → l.foldl mergeInto records = records ++ l
  | [], records, _ => by simp
  | s :: l, records, hn => by
    have hnew : (records.any fun r => r.key == s.key) = false := by
      rw [List.any_eq_false]
      intro r hr hkey
      rw [List.map_append, List.map_cons, List.nodup_append] at hn
      exact hn.2.2 r.key (List.mem_map_of_mem hr) s.key List.mem_cons_self (eq_of_beq hkey)
    rw [List.foldl_cons, mergeInto, if_neg (by simp [hnew]), foldl_mergeInto_eq (by simpa using hn)]
    simp

/-- Records with keys of their own are not merged. -/
theorem Model.mergeIdentities_eq {m : Model} (hn : (m.records.map (·.key)).Nodup) :
    m.mergeIdentities = m := by
  rw [mergeIdentities, foldl_mergeInto_eq (by simpa using hn)]
  rfl

theorem merged_default (title : Option Text) (t : Text) :
    (transform {} title t).merged = Model.ofText t defaultListNames := by
  have hkeys : ((Model.ofText t defaultListNames).records.map (·.key)).Nodup :=
    (numbered_recordsFrom _).keys
  rw [merged_eq]
  change ((Model.ofText t defaultListNames).rename [] []).1.mergeIdentities = _
  rw [Model.rename_nil, Model.mergeIdentities_eq hkeys]

/-- **Without options the records are those of the page**, each with a location. -/
theorem placed_default (title : Option Text) (t : Text) :
    (transform {} title t).placed = ((Model.ofText t defaultListNames).place .keep).1 := by
  rw [placed_eq, merged_default]
  rfl

/-- What a location does not change holds of all records if it holds of those read. -/
theorem forall_placed_default {motive : Record → Prop} {title : Option Text} {t : Text}
    (h : ∀ r ∈ (Model.ofText t defaultListNames).records, ∀ l,
      motive { r with location := l }) :
    ∀ r ∈ (transform {} title t).placed.records, motive r := by
  rw [placed_default]
  exact Model.forall_place h .keep

theorem writtenName_recordsFrom (os : List Occurrence) :
    ∀ r ∈ recordsFrom 0 [] os, r.writtenName = r.name := by
  refine forall_recordsFrom (motive := fun r => r.writtenName = r.name) ?_ ?_ ?_
  · intro r o hr
    rw [Record.add]
    split <;> exact hr
  · intro o _ index n
    rw [Record.opening, Record.add]
    split <;> rfl
  · intro r hr
    cases hr

/-- A record as read has the name that it has on the page. -/
theorem writtenName_ofText (t : Text) (names : List Text) :
    ∀ r ∈ (Model.ofText t names).records, r.writtenName = r.name :=
  writtenName_recordsFrom _

/-! ## 2. Locations -/

namespace Model

variable {m : Model} {p : Page} {names : List Text} {r : Record} {occ : Occurrence}

/-- If bodies stay, there is nothing to say about where they stand: one that is not in a list
is in a tag. -/
theorem notices_place_keep (hr : r ∈ m.records) : (m.locateRecord .keep r).2 = [] := by
  unfold locateRecord
  split
  · rename_i hself
    change (locate .keep r (m.usesOf r)).2 = []
    unfold locate
    split
    · rfl
    · split
      · rfl
      · rename_i hwish
        rw [if_neg]
        intro hheld
        obtain ⟨hbody, hall⟩ := Bool.and_eq_true_iff.mp hheld
        obtain ⟨c, hc⟩ := Option.isSome_iff_exists.mp hbody
        obtain ⟨occ, hocc, -, -⟩ := Record.exists_of_content? hc
        have hlisted : r.listed = [] := by
          by_contra hne
          simp [Mode.wish, hne] at hwish
        rcases hocc with hdef | hmem
        · obtain ⟨ho, hfull⟩ := Record.mem_definitions_iff.mp hdef
          have hchained := List.all_eq_true.mp hall occ (mem_usesOf_self hr hself ho)
          obtain ⟨b, hform⟩ := Occurrence.exists_full hfull
          simp [Occurrence.isChained, hform] at hchained
        · rw [hlisted] at hmem
          cases hmem
  · rfl

/-! ## 3. Plain pages -/

end Model

/-- An occurrence as it is written under the name of its reference. -/
def Record.written (r : Record) (occ : Occurrence) : Text :=
  match occ.form with
  | .full b => tagAround r.name occ.group b
  | .listed b own => tagAround r.name (if own then occ.group else none) b
  | .bare | .chained _ _ => citation r.name r.group false

/-- A tag or a definition has the name of its reference; or it has no body and the reference
no name; or it is written as it would be under the name of the reference. -/
def Record.Agrees (p : Page) (r : Record) (occ : Occurrence) : Prop :=
  occ.name = r.name ∨ occ.form = .bare ∧ r.name = none ∨ p.raw.cut occ.span = r.written occ

/-- The edits to a chain put there what stands there, and there is nothing to say. -/
def Model.Reproduces (m : Model) (ch : Chain) : Prop :=
  (∀ e ∈ (ch.edits none (m.targets ch)).1, m.page.raw.cut e.span = e.text) ∧
    (ch.edits none (m.targets ch)).2 = []

/-- Every occurrence has the name of its reference, and the names in chains fit there. -/
structure Model.Plain (m : Model) : Prop where
  tags : ∀ r ∈ m.records, ∀ occ ∈ r.uses, occ.isChained = false → r.Agrees m.page occ
  definitions : ∀ r ∈ m.records, ∀ occ ∈ r.listed, r.Agrees m.page occ
  /-- A reference without a name is defined in a list only if nothing uses it. -/
  nameless : ∀ r ∈ m.records, r.name = none → r.listed = [] ∨ r.uses = []
  chains : ∀ ch ∈ m.chains, (∀ r ∈ m.records, ∀ occ ∈ r.uses, ∀ i,
    occ.form = .chained ch.id i → occ.name = r.name ∧ r.name.any fitsChain = true) ∨
      m.Reproduces ch

theorem Page.change_eq_nil {p : Page} {s : Span} {w : Text} :
    p.change s w = [] ↔ p.raw.cut s = w := by
  rw [change]
  split
  · simp [*]
  · simp [*]

namespace Model

variable {m : Model} {p : Page} {names : List Text} {r : Record} {occ : Occurrence}

theorem isStripped_of_writtenName (hwritten : r.writtenName = r.name) :
    r.isStripped r = false := by
  rw [Record.isStripped, hwritten]
  cases r.name <;> rfl

/-- What a tag reads without options. -/
theorem keptText?_default (hself : r.canonical = r.index) (hstripped : r.isStripped r = false)
    (hchained : occ.isChained = false) (hlisted : occ.isListed = false) :
    m.keptText? {} r occ =
      if occ.name = r.name ∨ occ.form = .bare ∧ r.name = none then none
      else some (r.written occ) := by
  cases hform : occ.form with
  | chained id i => simp [Occurrence.isChained, hform] at hchained
  | listed b own => simp [Occurrence.isListed, hform] at hlisted
  | full b =>
    have hbody : ({} : Options).keptBody occ = b := by
      simp [Options.keptBody, Occurrence.body?, hform]
    rw [keptText?_full hself hform, Options.keptTag?, hstripped, hbody, Record.written, hform]
    by_cases hname : occ.name = r.name
    · simp [hname]
    · cases r.content? <;> simp [hname]
  | bare =>
    rw [keptText?_bare hself hform, Options.keptCitation?, hstripped, Record.written, hform]
    cases hname : r.name with
    | none => simp
    | some n => simp

theorem useEdits_eq_nil (hself : r.canonical = r.index)
    (hwritten : r.writtenName = r.name) (hlisted : ∀ occ ∈ r.uses, occ.isListed = false) :
    m.useEdits {} .keep r = [] ↔
      ∀ occ ∈ r.uses, occ.isChained = false → r.Agrees m.page occ := by
  have hstripped := isStripped_of_writtenName hwritten
  rw [List.eq_nil_iff_forall_not_mem]
  constructor
  · intro hnone occ ho hchained
    have htext := keptText?_default (m := m) hself hstripped hchained (hlisted occ ho)
    by_cases hagrees : occ.name = r.name ∨ occ.form = .bare ∧ r.name = none
    · exact hagrees.imp_right .inl
    · rw [if_neg hagrees] at htext
      refine .inr (.inr ?_)
      by_contra hcut
      exact hnone ⟨occ.span, r.written occ⟩ (mem_useEdits_keep.mpr
        ⟨occ, ho, _, htext, Page.mem_change.mpr ⟨hcut, rfl⟩⟩)
  · intro hall e he
    obtain ⟨occ, ho, w, hw, he⟩ := mem_useEdits_keep.mp he
    have hchained := isChained_of_keptText? hw
    rw [keptText?_default hself hstripped hchained (hlisted occ ho)] at hw
    split at hw
    · cases hw
    · rename_i hagrees
      obtain rfl := Option.some.inj hw
      have hcut : m.page.raw.cut occ.span = r.written occ :=
        ((or_assoc.mpr (hall occ ho hchained)).resolve_left hagrees)
      exact (Page.mem_change.mp he).1 hcut

theorem definitionEdits_eq_nil (hself : r.canonical = r.index) (hlisted : occ.isListed = true) :
    m.definitionEdits {} r occ = [] ↔
      (r.name = none → r.uses = []) ∧ r.Agrees m.page occ := by
  obtain ⟨b, own, hform⟩ := Occurrence.exists_listed hlisted
  have hbody : ({} : Options).keptBody occ = b := by
    simp [Options.keptBody, Occurrence.body?, hform]
  rw [definitionEdits, keptDefinition, canonical_self hself, hbody, Record.Agrees,
    Record.written, hform]
  by_cases hgoes : r.name = none ∧ r.uses ≠ []
  · rw [if_pos (by simpa using hgoes)]
    simp [hgoes.1, hgoes.2]
  · have hstays : r.name = none → r.uses = [] := by simpa using hgoes
    rw [if_neg (by simpa using hgoes)]
    by_cases hname : occ.name = r.name
    · simpa [hname] using hstays
    · simpa [hname, Page.change_eq_nil] using fun _ => hstays

/-- The edits to a chain are none, and nothing is said, if it reproduces what stands there. -/
theorem reproduces_iff {ch : Chain} :
    m.Reproduces ch ↔ (m.chainEdits {} ch).1 = [] ∧ (m.chainEdits {} ch).2 = [] := by
  rw [Reproduces, chainEdits, List.flatMap_eq_nil_iff]
  simp only [Page.change_eq_nil]

section Chains

variable (h : m.Accounts p names)
include h

/-- Each name of a chain is a use. -/
theorem Accounts.exists_use_of_name {ch : Chain} (hch : ch ∈ m.chains) {i : Nat}
    {e : PlacedEntry} (he : ch.names[i]? = some e) :
    ∃ r ∈ m.records, ∃ occ ∈ r.uses, occ.form = .chained ch.id i ∧ occ.name = some e.value := by
  rw [h.chains_eq, Page.survey_eq] at hch
  obtain ⟨occ, hocc⟩ : ∃ occ : Occurrence, occ = ⟨ch.template.span, .chained ch.id i,
      some e.value, groupAt? ch.plainEntries e.index⟩ := ⟨_, rfl⟩
  have hsurvey : occ ∈ (p.survey names).occurrences := by
    rw [Page.survey_eq]
    exact Page.mem_occurrencesAmong.mpr
      (.inr (.inr ⟨ch, hch, Chain.mem_occurrences.mpr ⟨i, e, he, hocc⟩⟩))
  have huse := h.uses.mem_iff.mpr (List.mem_filter.mpr ⟨hsurvey, by rw [hocc]; rfl⟩)
  obtain ⟨r, hr, ho⟩ := List.mem_flatMap.mp huse
  exact ⟨r, hr, occ, ho, by rw [hocc], by rw [hocc]⟩

/-- A name of a chain that is the name of its reference is the name of its target. -/
theorem Accounts.target_of_agree {ch : Chain} (hch : ch ∈ m.chains) (hu : m.Unmerged)
    (hagree : ∀ r ∈ m.records, ∀ occ ∈ r.uses, ∀ i, occ.form = .chained ch.id i →
      occ.name = r.name) {i : Nat} {e : PlacedEntry} (he : ch.names[i]? = some e) :
    ∃ r ∈ m.records, (∃ occ ∈ r.uses, occ.form = .chained ch.id i) ∧ r.name = some e.value ∧
      (m.targets ch)[i]? = some ⟨some e.value, r.content?⟩ := by
  obtain ⟨r, hr, occ, ho, hform, hvalue⟩ := h.exists_use_of_name hch he
  have hname : r.name = some e.value := by rw [← hagree r hr occ ho i hform, hvalue]
  refine ⟨r, hr, ⟨occ, ho, hform⟩, hname, ?_⟩
  rw [h.getElem?_targets hr ho hform he, canonical_self (hu r hr), hname]

/-- The targets of a chain have its names. -/
theorem Accounts.map_name_targets {ch : Chain} (hch : ch ∈ m.chains) (hu : m.Unmerged)
    (hagree : ∀ r ∈ m.records, ∀ occ ∈ r.uses, ∀ i, occ.form = .chained ch.id i →
      occ.name = r.name) : (m.targets ch).map (·.name) = ch.names.map fun e => some e.value := by
  have hlength : (m.targets ch).length = ch.names.length := by
    rw [targets, List.length_mapIdx]
  refine List.ext_getElem? fun i => ?_
  rw [List.getElem?_map, List.getElem?_map]
  cases he : ch.names[i]? with
  | none =>
    rw [List.getElem?_eq_none_iff] at he
    rw [List.getElem?_eq_none (by omega)]
    rfl
  | some e =>
    obtain ⟨r, -, -, -, ht⟩ := h.target_of_agree hch hu hagree he
    rw [ht]
    rfl

/-- A chain whose names are those of their references, and fit, stays as it is. -/
theorem Accounts.reproduces_of_agree {ch : Chain} (hch : ch ∈ m.chains) (hu : m.Unmerged)
    (hagree : ∀ r ∈ m.records, ∀ occ ∈ r.uses, ∀ i, occ.form = .chained ch.id i →
      occ.name = r.name ∧ r.name.any fitsChain = true) : m.Reproduces ch := by
  have hnames : ∀ r ∈ m.records, ∀ occ ∈ r.uses, ∀ i, occ.form = .chained ch.id i →
      occ.name = r.name := fun r hr occ ho i hform => (hagree r hr occ ho i hform).1
  have hfits : ∀ e ∈ ch.names, fitsChain e.value = true := by
    intro e he
    obtain ⟨i, hi⟩ := List.mem_iff_getElem?.mp he
    obtain ⟨r, hr, ⟨occ, ho, hform⟩, hname, -⟩ := h.target_of_agree hch hu hnames hi
    have hfits := (hagree r hr occ ho i hform).2
    rw [hname] at hfits
    exact hfits
  have hedits : ch.edits none (m.targets ch) = ([], []) :=
    Chain.edits_of_fits (by simp) (h.map_name_targets hch hu hnames) hfits
  simp [Reproduces, hedits]

/-! ## 4. The plan -/

/-- **The plan is empty, and no chain is kept against the wish, exactly on plain pages.** -/
theorem Accounts.plan_default_iff (hu : m.Unmerged)
    (hwritten : ∀ r ∈ m.records, r.writtenName = r.name) :
    ((m.plan {} .keep).1.edits = [] ∧ ∀ ch ∈ m.chains, (m.chainEdits {} ch).2 = []) ↔
      m.Plain := by
  have hkept : ∀ r : Record, (m.keepRecord {} r).1 =
      m.useEdits {} .keep r ++ r.listed.flatMap (m.definitionEdits {} r) := fun r => rfl
  have huses : ∀ r ∈ m.records, ∀ occ ∈ r.uses, occ.isListed = false := fun r hr occ ho =>
    (h.mem_survey_of_use hr ho).2
  have hlisted : ∀ r ∈ m.records, ∀ occ ∈ r.listed, occ.isListed = true := fun r hr occ ho =>
    (h.mem_survey_of_listed hr ho).2
  rw [plan_edits, List.append_eq_nil_iff, markEdits, List.flatMap_eq_nil_iff,
    List.flatMap_eq_nil_iff]
  constructor
  · rintro ⟨⟨hchains, hrecords⟩, hnotices⟩
    have hrecord : ∀ r ∈ m.records, m.useEdits {} .keep r = [] ∧
        ∀ occ ∈ r.listed, m.definitionEdits {} r occ = [] := by
      intro r hr
      have hnil := hrecords r hr
      rwa [hkept, List.append_eq_nil_iff, List.flatMap_eq_nil_iff] at hnil
    refine ⟨fun r hr => ?_, fun r hr occ ho => ?_, fun r hr hname => ?_, fun ch hch => ?_⟩
    · exact (useEdits_eq_nil (hu r hr) (hwritten r hr) (huses r hr)).mp (hrecord r hr).1
    · exact ((definitionEdits_eq_nil (hu r hr) (hlisted r hr occ ho)).mp
        ((hrecord r hr).2 occ ho)).2
    · rcases List.eq_nil_or_concat r.listed with hnil | ⟨l, occ, hl⟩
      · exact .inl hnil
      · have ho : occ ∈ r.listed := by simp [hl]
        exact .inr (((definitionEdits_eq_nil (hu r hr) (hlisted r hr occ ho)).mp
          ((hrecord r hr).2 occ ho)).1 hname)
    · exact .inr (reproduces_iff.mpr ⟨hchains ch hch, hnotices ch hch⟩)
  · intro hp
    have hchain : ∀ ch ∈ m.chains, m.Reproduces ch := fun ch hch =>
      (hp.chains ch hch).elim (h.reproduces_of_agree hch hu) id
    refine ⟨⟨fun ch hch => (reproduces_iff.mp (hchain ch hch)).1, fun r hr => ?_⟩,
      fun ch hch => (reproduces_iff.mp (hchain ch hch)).2⟩
    rw [hkept, List.append_eq_nil_iff, List.flatMap_eq_nil_iff]
    refine ⟨(useEdits_eq_nil (hu r hr) (hwritten r hr) (huses r hr)).mpr (hp.tags r hr),
      fun occ ho => ?_⟩
    refine (definitionEdits_eq_nil (hu r hr) (hlisted r hr occ ho)).mpr
      ⟨fun hname => ?_, hp.definitions r hr occ ho⟩
    exact (hp.nameless r hr hname).resolve_left (List.ne_nil_of_mem ho)

end Chains

/-- **Names and groups that are told apart by their identities make a page plain**, if the names
in chains fit there. -/
theorem IsFiled.plain {mode : Mode} (h : m.IsFiled mode p names)
    (hfits : ∀ o ∈ (p.survey names).occurrences, o.isChained = true →
      o.name.any fitsChain = true) : m.Plain where
  tags r hr occ ho _ := .inl (h.of_mem hr (.inl ho)).1
  definitions r hr occ ho := .inl (h.of_mem hr (.inr ho)).1
  nameless r hr hname := h.nil_of_nameless hr hname
  chains ch _ := .inl fun r hr occ ho i hform => by
    have hn : occ.name = r.name := (h.of_mem hr (.inl ho)).1
    have hchained : occ.isChained = true := by rw [Occurrence.isChained, hform]
    exact ⟨hn, hn ▸ hfits occ (h.mem_survey_of_use hr ho).1 hchained⟩

/-! ## 5. Warnings -/

theorem level_of_mem_chainEdits {o : Options} {ch : Chain} {n : Notice}
    (hn : n ∈ (m.chainEdits o ch).2) : n.level = .warning := by
  have hedits : (m.chainEdits o ch).2 = (ch.edits o.useChains (m.targets ch)).2 := rfl
  rw [hedits, Chain.edits] at hn
  split at hn
  · split at hn
    · cases hn
    · cases hn
    · rw [List.mem_singleton.mp hn]
      rfl
  · cases hn

/-- Without options a plan has nothing to say but what it says of chains. -/
theorem notices_plan_default (hu : m.Unmerged)
    (hwritten : ∀ r ∈ m.records, r.writtenName = r.name) :
    (m.plan {} .keep).2 = m.chains.flatMap fun ch => (m.chainEdits {} ch).2 := by
  have hkept : ∀ r ∈ m.records, (m.keepRecord {} r).2 = [] := by
    intro r hr
    have hstripped : r.isStripped r = false := by
      rw [Record.isStripped, hwritten r hr]
      cases r.name <;> rfl
    rw [keepRecord, canonical_self (hu r hr), hstripped]
    rfl
  have hnone : (m.records.map (m.keepRecord {})).flatMap (·.2) = [] := by
    rw [List.flatMap_map, List.flatMap_eq_nil_iff]
    exact hkept
  simp only [plan, hnone, List.append_nil, List.flatMap_map]

end Model

theorem Journal.warnings_note (j : Journal) (n : Notice) :
    (j.note n).warnings = j.warnings ++ if n.level = .warning then [n.text] else [] := by
  rw [warnings, ofLevel, note, add, List.filter_append, List.map_append]
  by_cases hn : n.level = .warning <;> simp [hn, warnings, ofLevel]

/-- The warnings of a journal grow by the notices that are warnings. -/
theorem Journal.warnings_foldl_note : ∀ (ns : List Notice) (j : Journal),
    (ns.foldl note j).warnings =
      j.warnings ++ (ns.filter (·.level = .warning)).map (·.text)
  | [], j => by simp
  | n :: ns, j => by
    rw [List.foldl_cons, Journal.warnings_foldl_note ns, Journal.warnings_note]
    by_cases hn : n.level = .warning <;> simp [hn]

theorem Journal.warnings_noteAll (j : Journal) (stage : Text) (ns : List Notice) :
    (j.noteAll stage ns).warnings =
      j.warnings ++ (ns.filter (·.level = .warning)).map (·.text) :=
  Journal.warnings_foldl_note ns (j.enter stage)

/-- The text of a run that joins no citations. -/
theorem text_eq {o : Options} (ho : o.useChains ≠ some true) {title : Option Text} {t : Text} :
    (transform o title t).text = Edit.applyAll t (transform o title t).plan.edits := by
  have hjoined : (transform o title t).joined = ((if o.useChains = some true then
      some (joinCitations (transform o title t).edited o.listNames.toList) else none).map
        (·.1)) := rfl
  have hedited : (transform o title t).edited =
      Edit.applyAll t (transform o title t).plan.edits := rfl
  rw [Run.text, hjoined, if_neg ho, hedited]
  rfl

/-- The journal of a run, stage by stage. -/
theorem journal_eq (o : Options) (title : Option Text) (t : Text) :
    (transform o title t).journal = ((((({ title := title } : Journal).noteAll "locate".toList
      ((Mode.ofSetting o.location).2 ++
        ((((transform o title t).deduped.map (·.1)).getD (transform o title t).merged).place
          (transform o title t).mode).2)).noteAll "render".toList
      ((transform o title t).placed.plan o (transform o title t).mode).2).noteAll
        "shorthand".toList (((if o.useChains = some true then
          some (joinCitations (transform o title t).edited o.listNames.toList)
            else none).map (·.2)).getD [])).enter []) := rfl

/-- Without options the warnings are those of the plan. -/
theorem warnings_default (title : Option Text) (t : Text) :
    (transform {} title t).warnings =
      (((transform {} title t).placed.plan {} .keep).2.filter (·.level = .warning)).map
        (·.text) := by
  have hmode : Mode.ofSetting ({} : Options).location = (.keep, []) := rfl
  have hrun : (transform {} title t).mode = .keep := rfl
  have hdeduped : (transform {} title t).deduped = none := rfl
  have hplaced : ((transform {} title t).merged.place .keep).2 = [] := by
    rw [merged_default, Model.place, List.flatMap_map, List.flatMap_eq_nil_iff]
    exact fun r hr => Model.notices_place_keep hr
  rw [Run.warnings, journal_eq, hmode, hrun, hdeduped, Option.map_none, Option.getD_none, hplaced,
    if_neg (by simp)]
  have henter : ∀ j : Journal, (j.enter []).warnings = j.warnings := fun _ => rfl
  rw [henter, Journal.warnings_noteAll, Journal.warnings_noteAll, Journal.warnings_noteAll]
  simp [Journal.warnings, Journal.ofLevel]

/-- **A transform without options is silent on plain pages, and on no others.**  Silence means
that no edit is planned, that the text comes out as it went in, that no change is reported and
that there is no warning.  A page is plain whose names and groups are told apart by their
identities and whose names in chains fit there. -/
theorem silent_iff_plain (title : Option Text) (t : Text) :
    Options.ofDictionary [] = ({}, []) ∧
      ((transform {} title t).plan.edits = [] ∧ (transform {} title t).text = t ∧
        (transform {} title t).changes = ⟨[], [], [], []⟩ ∧
        (transform {} title t).warnings = [] ↔ (transform {} title t).placed.Plain) ∧
      ((∀ o ∈ (Page.ofText t).occurrences defaultListNames, PlainlyKeyed o.name o.group ∧
          (o.isChained = true → o.name.any fitsChain = true)) →
        (transform {} title t).placed.Plain) := by
  refine ⟨rfl, ?_, fun hpage => ?_⟩
  case refine_2 =>
    rw [Page.occurrences, Page.sortByStart_occurrences] at hpage
    rw [placed_default]
    exact (isFiled_place .keep t _ fun o ho => (hpage o ho).1).plain fun o ho => (hpage o ho).2
  have h := accounts_placed {} title t
  have hu : (transform {} title t).placed.Unmerged :=
    forall_placed_default fun r hr _ => unmerged_ofText t defaultListNames r hr
  have hwritten : ∀ r ∈ (transform {} title t).placed.records, r.writtenName = r.name :=
    forall_placed_default fun r hr _ => writtenName_ofText t defaultListNames r hr
  have hchanges : (transform {} title t).changes = ⟨[], [], [], []⟩ := by
    have hrenames : (transform {} title t).renames =
        ((Model.ofText t defaultListNames).rename [] []).2 := rfl
    have hplan : (transform {} title t).plan.movedInline = [] ∧
        (transform {} title t).plan.movedListed = [] := ⟨rfl, rfl⟩
    rw [Run.changes, hrenames, Model.rename_nil, hplan.1, hplan.2]
    rfl
  have htext : (transform {} title t).plan.edits = [] → (transform {} title t).text = t := by
    intro hnil
    rw [text_eq (by decide), hnil]
    rfl
  have hnotices : (transform {} title t).warnings = [] ↔
      ∀ ch ∈ (transform {} title t).placed.chains,
        ((transform {} title t).placed.chainEdits {} ch).2 = [] := by
    rw [warnings_default, Model.notices_plan_default hu hwritten, List.map_eq_nil_iff,
      List.filter_eq_nil_iff]
    simp only [List.mem_flatMap]
    constructor
    · intro hnone ch hch
      rw [List.eq_nil_iff_forall_not_mem]
      exact fun n hn => hnone n ⟨ch, hch, hn⟩
        (decide_eq_true (Model.level_of_mem_chainEdits hn))
    · rintro hnone n ⟨ch, hch, hn⟩
      rw [hnone ch hch] at hn
      cases hn
  rw [← h.plan_default_iff hu hwritten, hnotices]
  constructor
  · rintro ⟨hedits, -, -, hnone⟩
    exact ⟨hedits, hnone⟩
  · rintro ⟨hedits, hnone⟩
    exact ⟨hedits, htext hedits, hchanges, hnone⟩

/-- A citation of `g::x` and a reference `x` of the group `g` have one identity, and the
reference gets the name of the citation. -/
theorem renamed_without_options :
    (transform {} none
      "<ref name=\"g::x\" /><ref name=\"x\" group=\"g\">body</ref>".toList).text =
      "<ref name=\"g::x\" /><ref name=\"g::x\" group=\"g\">body</ref>".toList := by
  decide +kernel

end CiteMarkup
