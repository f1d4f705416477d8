import CiteMarkup.Proofs.Transform.Keeping
import CiteMarkup.Proofs.Transform.Moving
/-!
# Where bodies remain

After a plan, a body stands in a tag of its reference, in a chain that is taken apart, in a
definition that stays, or in an output list that is rebuilt or added (`Model.Holds`).  Only the
body of a reference without a name can be lost: its definitions go because it is used, and
then each use has to take the body (`Model.Abandoned`).  A chain that stays as it is takes none.

Every body remains unless it is abandoned, and one that is abandoned is gone
(`bodies_remain_unless_abandoned`).
-/

namespace CiteMarkup
namespace Model

variable {m : Model} {p : Page} {names : List Text} {o : Options} {mode : Mode} {r s : Record}
variable {c : Text} {occ : Occurrence}

/-! ## 1. Remaining and being lost -/

/-- After the edits, the page has a text that shows the body `c` of the record `r`. -/
inductive Holds (m : Model) (p : Page) (names : List Text) (o : Options) (edits : List Edit)
    (r : Record) (c : Text) : Prop
  /-- In a tag of the running text. -/
  | tag {occ : Occurrence} {w : Text} (mem : occ ∈ m.tagsOf r) (shows : p.Shows occ c w)
      (leaves : p.LeavesTag names edits occ w)
  /-- In the expansion of a chain. -/
  | chain {ch : Chain} {group : Option Text} {w : Text} (mem : ch ∈ m.chains)
      (shows : fullTag none group c false <:+: w)
      (leaves : p.Leaves names edits (.chain ch.template) ch.template.span w)
  /-- In a definition that stays. -/
  | definition {occ : Occurrence} {t : Template} {w : Text} (mem : occ ∈ r.listed)
      (inside : occ ∈ p.listedIn t) (shows : p.Shows occ c w)
      (leaves : p.Leaves names edits (.list t) occ.span w)
  /-- In a list that is rebuilt. -/
  | list {t : Template} {w : Text} (mem : t ∈ m.lists)
      (shows : fullTag r.name none c o.normalizeBodies <:+: w)
      (leaves : p.Leaves names edits (.list t) t.span w)
  /-- In a list that is added at the end of the page. -/
  | added {w : Text} (shows : fullTag r.name none c o.normalizeBodies <:+: w)
      (settled : ⟨Span.empty p.raw.length, w⟩ ∈ Edit.settle edits)

/-- A use of the nameless record `r` does not take the body `c`.  A chain stays as it is.  A
tag with a body of its own keeps that; one without it takes a body only if the reference has
had a name and has lost it. -/
def Refuses (m : Model) (o : Options) (mode : Mode) (r : Record) (c : Text)
    (occ : Occurrence) : Prop :=
  match occ.form with
  | .chained id _ =>
    ∃ ch ∈ m.chains, ch.id = id ∧ ∃ why, ch.expand (m.targets ch) = .error why
  | .bare => mode = .keep ∧ r.writtenName = none
  | .full b =>
    mode = .keep ∧
      if b.isBlankOnly then r.writtenName = none ∨ occ.name = none ∧ o.normalizeBodies = false
      else tidy b ≠ tidy c
  | .listed _ _ => False

/-- The record has no name, it is used, and no use takes its body. -/
structure Abandoned (m : Model) (o : Options) (mode : Mode) (r : Record) (c : Text) : Prop where
  nameless : r.name = none
  used : r.uses ≠ []
  refused : ∀ occ ∈ r.uses, m.Refuses o mode r c occ

/-- No use of the record takes the body, and its definitions go. -/
structure Dropped (m : Model) (p : Page) (names : List Text) (o : Options) (mode : Mode)
    (r : Record) (c : Text) : Prop where
  chains : ∀ occ ∈ r.uses, ∀ id i, occ.form = .chained id i →
    ∃ ch ∈ m.chains, ch.id = id ∧ (m.chainEdits o ch).1 = []
  tags : ∀ occ ∈ r.uses, occ.isChained = false →
    (∀ b, occ.body? = some b → b.isBlankOnly = true ∨ tidy b ≠ tidy c) ∧
      ∃ w, p.LeavesTag names (m.plan o mode).1.edits occ w ∧
        (w = p.raw.cut occ.span ∨ w = tagAround none occ.group (o.keptBody occ))
  definitions : mode = .keep → ∀ occ ∈ r.listed,
    m.definitionEdits o r occ = [⟨m.page.definitionLine occ, []⟩]
  entries : r.definition? = none

/-! ## 2. Records without a name -/

/-- Nothing is merged into a record without a name. -/
theorem eq_of_mem_merged (h : m.Accounts p names) (hs : m.Settled) (hr : r ∈ m.records)
    (hname : r.name = none) (hm : s ∈ m.merged r) : s = r := by
  have hlike : r.likeness? = none := by rw [Record.likeness?, hname]
  exact eq_of_mem_merged_of_unlike h hs hr hlike hm

theorem mem_usesOf_nameless (h : m.Accounts p names) (hs : m.Settled) (hr : r ∈ m.records)
    (hself : r.canonical = r.index) (hname : r.name = none) :
    occ ∈ m.usesOf r ↔ occ ∈ r.uses := by
  refine ⟨fun ho => ?_, mem_usesOf_self hr hself⟩
  obtain ⟨s, hsm, ho⟩ := mem_usesOf.mp ho
  rwa [eq_of_mem_merged h hs hr hname hsm] at ho

/-- A record without a name is placed in a list if it has no uses, and only then. -/
theorem location_nameless {m₀ : Model} (h : (m₀.place mode).1.Accounts p names)
    (hs : (m₀.place mode).1.Settled) (hr : r ∈ (m₀.place mode).1.records)
    (hself : r.canonical = r.index) (hname : r.name = none) (hbody : r.content? = some c) :
    r.location = .listDefined ↔ r.uses = [] := by
  have huses : (m₀.place mode).1.usesOf r = [] ↔ r.uses = [] := by
    simp only [List.eq_nil_iff_forall_not_mem, mem_usesOf_nameless h hs hr hself hname]
  have hlisted : r.uses = [] → r.listed ≠ [] := by
    intro hu hl
    rw [Record.content?, r.definitions_eq, hu, hl] at hbody
    cases hbody
  rw [location_of_mem_place hr hself, locate, hname, ← huses]
  constructor
  · intro hloc
    by_contra hne
    rw [if_neg (by simp [hne])] at hloc
    cases hloc
  · intro hnil
    rw [if_pos (by simpa [hnil] using hlisted (huses.mp hnil))]

/-! ## 3. Bodies in lists -/

section Holds

variable (h : m.Accounts p names)
include h

/-- A definition that is written stands in a list that is rebuilt or added. -/
theorem Accounts.holds_of_definition? (hmode : mode ≠ .keep) (hr : r ∈ m.records)
    (hlisted : r.location = .listDefined) (hself : r.canonical = r.index)
    (hc : r.content? = some c) : m.Holds p names o (m.plan o mode).1.edits r c := by
  have hmem : (⟨r.name, r.group, c⟩ : ListEntry) ∈ m.writtenEntries := by
    rw [(writtenEntries_perm m).mem_iff]
    exact List.mem_filterMap.mpr ⟨r, hr, definition?_eq_some.mpr ⟨⟨hself, hlisted⟩, c, hc, rfl⟩⟩
  have hwrite : o.listStyle.write ⟨r.name, r.group, c⟩ =
      fullTag r.name none c o.normalizeBodies := rfl
  rw [writtenEntries, List.mem_append, List.mem_flatMap, List.mem_flatMap] at hmem
  rcases hmem with ⟨share, hshare, hown⟩ | ⟨share, hshare, hown⟩
  · have ht : share.1 ∈ m.lists := by
      rw [← listShares_fst m.listEntries m.lists []]
      exact List.mem_map_of_mem hshare
    have hinfix := (o.listStyle.infix_value hown).trans
      (share.1.value_infix_updated p.raw o.listStyle (List.ne_nil_of_mem hown))
    rw [hwrite] at hinfix
    exact .list ht hinfix (h.leaves_share hmode hshare)
  · have hnew : newList share.1 o.listStyle share.2 ∈ m.addedLists o := by
      rw [addedLists, newLists_eq]
      exact List.mem_map.mpr ⟨share, hshare, rfl⟩
    have hinfix := ((o.listStyle.infix_value hown).trans
      (value_infix_newList share.1 o.listStyle share.2)).trans (List.infix_of_mem_flatten hnew)
    rw [hwrite] at hinfix
    exact .added hinfix (h.mem_settle_added hmode (List.ne_nil_of_mem hnew))

/-! ## 4. Bodies at uses -/

omit h in
theorem mem_tagsOf_self (hself : r.canonical = r.index) (hr : r ∈ m.records)
    (ho : occ ∈ r.uses) (hc : occ.isChained = false) : occ ∈ m.tagsOf r :=
  mem_tagsOf.mpr ⟨⟨r, hr, by rw [canonical_self hself], ho⟩, hc⟩

/-- A tag that stays and has the body holds it. -/
theorem Accounts.holds_of_visible (hr : r ∈ m.records) (hself : r.canonical = r.index)
    (ho : occ ∈ r.uses) {b : Text} (hform : occ.form = .full b) (hb : b.isBlankOnly = false)
    (heq : tidy b = tidy c) : m.Holds p names o (m.plan o .keep).1.edits r c := by
  have hchained : occ.isChained = false := by rw [Occurrence.isChained, hform]
  have hbody : occ.visibleBody? = some b :=
    Occurrence.visibleBody?_eq_some.mpr ⟨by rw [Occurrence.body?, hform], hb⟩
  have hleaves := h.leavesTag_kept (o := o) hr ho hchained
  rw [keptText?_full hself hform] at hleaves
  exact .tag (mem_tagsOf_self hself hr ho hchained) (shows_keptTag p o r r hbody heq) hleaves

/-- A tag that stays and takes the body of a reference that has lost its name. -/
theorem Accounts.holds_of_copy (hr : r ∈ m.records) (hself : r.canonical = r.index)
    (ho : occ ∈ r.uses) (hchained : occ.isChained = false)
    (hkept : m.keptText? o r occ = some (fullTag none occ.group c o.normalizeBodies)) :
    m.Holds p names o (m.plan o .keep).1.edits r c := by
  have hleaves := h.leavesTag_kept (o := o) hr ho hchained
  rw [hkept] at hleaves
  exact .tag (mem_tagsOf_self hself hr ho hchained) (shows_fullTag p occ c _ _ _) hleaves

/-- If bodies move, every tag of a reference without a name takes its body. -/
theorem Accounts.holds_of_moved (hmode : mode ≠ .keep) (hr : r ∈ m.records)
    (hself : r.canonical = r.index) (hname : r.name = none) (hc : r.content? = some c)
    (ho : occ ∈ r.uses) (hchained : occ.isChained = false) :
    m.Holds p names o (m.plan o mode).1.edits r c := by
  have hmem := mem_tagsOf_self hself hr ho hchained
  obtain ⟨i, hi⟩ := List.mem_iff_getElem?.mp hmem
  have hleaves := h.leavesTag_moving (o := o) (w := fullTag none r.group c o.normalizeBodies)
    hmode hr hself hi (by rw [movedText?, Options.movedUse?, hname, hc])
  exact .tag hmem (shows_fullTag p occ c _ _ _) hleaves

/-- If bodies move, the first tag of a reference that is placed in the text takes its body. -/
theorem Accounts.holds_of_first (hmode : mode ≠ .keep) (hr : r ∈ m.records)
    (hself : r.canonical = r.index) (hname : r.name.isSome) (hc : r.content? = some c)
    (hinline : r.location = .inline) (htags : m.tagsOf r ≠ []) :
    m.Holds p names o (m.plan o mode).1.edits r c := by
  obtain ⟨n, hn⟩ := Option.isSome_iff_exists.mp hname
  obtain ⟨first, rest, heq⟩ := List.exists_cons_of_ne_nil htags
  have hfirst : (m.tagsOf r)[0]? = some first := by
    rw [heq]
    rfl
  have hleaves := h.leavesTag_moving (o := o) (w := fullTag r.name r.group c o.normalizeBodies)
    hmode hr hself hfirst (by rw [movedText?, Options.movedUse?, hn, hc]; simp [hinline])
  exact .tag (heq ▸ List.mem_cons_self) (shows_fullTag p first c _ _ _) hleaves

/-- A tag without a body takes that of a reference that has lost its name. -/
theorem Accounts.holds_or_refuses_bare (hr : r ∈ m.records) (hself : r.canonical = r.index)
    (hname : r.name = none) (hc : r.content? = some c) (ho : occ ∈ r.uses)
    (hform : occ.form = .bare) : m.Holds p names o (m.plan o .keep).1.edits r c ∨
      r.writtenName = none := by
  cases hwritten : r.writtenName with
  | none => exact .inr rfl
  | some n =>
    have hchained : occ.isChained = false := by rw [Occurrence.isChained, hform]
    refine .inl (h.holds_of_copy hr hself ho hchained ?_)
    simp [keptText?_bare hself hform, Options.keptCitation?, Record.isStripped, hname, hwritten,
      hc]

/-- A tag with a blank body does so too, unless it is left as it is. -/
theorem Accounts.holds_or_refuses_blank (hr : r ∈ m.records) (hself : r.canonical = r.index)
    (hname : r.name = none) (hc : r.content? = some c) (ho : occ ∈ r.uses) {b : Text}
    (hform : occ.form = .full b) (hb : b.isBlankOnly = true) :
    m.Holds p names o (m.plan o .keep).1.edits r c ∨
      (r.writtenName = none ∨ occ.name = none ∧ o.normalizeBodies = false) := by
  by_cases hstays : r.writtenName = none ∨ occ.name = none ∧ o.normalizeBodies = false
  · exact .inr hstays
  · obtain ⟨hwritten, hleft⟩ := not_or.mp hstays
    have hchained : occ.isChained = false := by rw [Occurrence.isChained, hform]
    have hbody : occ.visibleBody? = none := by
      simp [Occurrence.visibleBody?, Occurrence.body?, hform, hb]
    have hedited : ¬ (decide (occ.name = r.name) && !o.normalizeBodies) = true := by
      simpa [hname] using hleft
    have hstripped : r.isStripped r = true := by
      simp [Record.isStripped, hname, Option.isSome_iff_ne_none.mpr hwritten]
    refine .inl (h.holds_of_copy hr hself ho hchained ?_)
    rw [keptText?_full hself hform, Options.keptTag?, if_neg hedited, hc, hstripped, hbody]
    rfl

/-- **A use of a reference without a name takes its body, or refuses it.** -/
theorem Accounts.holds_or_refuses (hr : r ∈ m.records) (hself : r.canonical = r.index)
    (hname : r.name = none) (hc : r.content? = some c) (ho : occ ∈ r.uses) :
    m.Holds p names o (m.plan o mode).1.edits r c ∨ m.Refuses o mode r c occ := by
  obtain ⟨-, -, -, hvisible⟩ := Record.exists_of_content? hc
  cases hform : occ.form with
  | listed b own =>
    have hl := (h.mem_survey_of_use hr ho).2
    rw [Occurrence.isListed, hform] at hl
    cases hl
  | chained id i =>
    obtain ⟨ch, hch, rfl, e, he⟩ := h.exists_chain hr ho hform
    have htarget := List.mem_of_getElem? (h.getElem?_targets hr ho hform he)
    rw [canonical_self hself, hname, hc] at htarget
    rcases h.chain_shows o mode hch hvisible htarget with
      ⟨why, hwhy⟩ | ⟨w, group, hinfix, hleaves⟩
    · right
      rw [Refuses, hform]
      exact ⟨ch, hch, rfl, why, hwhy⟩
    · exact .inl (.chain hch hinfix hleaves)
  | bare =>
    by_cases hmode : mode = .keep
    · subst hmode
      refine (h.holds_or_refuses_bare hr hself hname hc ho hform).imp_right fun hwritten => ?_
      rw [Refuses, hform]
      exact ⟨rfl, hwritten⟩
    · exact .inl (h.holds_of_moved hmode hr hself hname hc ho
        (by rw [Occurrence.isChained, hform]))
  | full b =>
    by_cases hmode : mode = .keep
    · subst hmode
      cases hb : b.isBlankOnly with
      | true =>
        refine (h.holds_or_refuses_blank hr hself hname hc ho hform hb).imp_right fun hstays => ?_
        rw [Refuses, hform]
        exact ⟨rfl, by rwa [if_pos hb]⟩
      | false =>
        by_cases heq : tidy b = tidy c
        · exact .inl (h.holds_of_visible hr hself ho hform hb heq)
        · right
          rw [Refuses, hform]
          exact ⟨rfl, by rwa [if_neg (by simp [hb])]⟩
    · exact .inl (h.holds_of_moved hmode hr hself hname hc ho
        (by rw [Occurrence.isChained, hform]))

/-! ## 5. What is abandoned is gone -/

omit h in
/-- A tag that refuses the body has none that is like it, and stays as it is or is written
around the one that it has. -/
theorem kept_of_refuses (hself : r.canonical = r.index) (hname : r.name = none)
    (hc : r.content? = some c) (hchained : occ.isChained = false)
    (href : m.Refuses o mode r c occ) : mode = .keep ∧
      (∀ b, occ.body? = some b → b.isBlankOnly = true ∨ tidy b ≠ tidy c) ∧
      (m.keptText? o r occ = none ∨
        m.keptText? o r occ = some (tagAround none occ.group (o.keptBody occ))) := by
  cases hform : occ.form with
  | chained id i =>
    rw [Occurrence.isChained, hform] at hchained
    cases hchained
  | listed b own =>
    rw [Refuses, hform] at href
    exact href.elim
  | bare =>
    rw [Refuses, hform] at href
    obtain ⟨hmode, hwritten⟩ := href
    refine ⟨hmode, fun b hb => ?_, .inl ?_⟩
    · rw [Occurrence.body?, hform] at hb
      cases hb
    · simp [keptText?_bare hself hform, Options.keptCitation?, Record.isStripped, hname, hwritten]
  | full b =>
    rw [Refuses, hform] at href
    obtain ⟨hmode, hrefused⟩ := href
    have hbody : occ.body? = some b := by rw [Occurrence.body?, hform]
    refine ⟨hmode, fun b' hb' => ?_, ?_⟩
    · obtain rfl : b = b' := Option.some.inj (hbody.symm.trans hb')
      split at hrefused
      · exact .inl ‹_›
      · exact .inr hrefused
    · rw [keptText?_full hself hform, Options.keptTag?, hname, hc]
      split
      · exact .inl rfl
      · rename_i hedited
        refine .inr ?_
        simp only
        rw [if_neg]
        intro hcopied
        obtain ⟨hstripped, hnone⟩ := Bool.and_eq_true_iff.mp hcopied
        have hblank : b.isBlankOnly = true := by
          by_contra hb
          rw [Occurrence.visibleBody?, hbody, Option.bind_some, if_neg hb] at hnone
          cases hnone
        rw [if_pos hblank] at hrefused
        rcases hrefused with hwritten | ⟨hnameless, hleft⟩
        · simp [Record.isStripped, hwritten] at hstripped
        · exact hedited (by simp [hnameless, hleft])

/-- **No use takes an abandoned body, and its definitions go.** -/
theorem Accounts.dropped (hr : r ∈ m.records) (hself : r.canonical = r.index)
    (hc : r.content? = some c) (hloc : r.location = .listDefined ↔ r.uses = [])
    (ha : m.Abandoned o mode r c) : m.Dropped p names o mode r c where
  chains := by
    intro occ ho id i hform
    have hrefuses := ha.refused occ ho
    rw [Refuses, hform] at hrefuses
    obtain ⟨ch, hch, rfl, why, hwhy⟩ := hrefuses
    obtain ⟨ch', hch', hid, e, he⟩ := h.exists_chain hr ho hform
    obtain rfl := h.chain_eq hch' hch (.inl hid)
    have htarget := List.mem_of_getElem? (h.getElem?_targets hr ho hform he)
    rw [canonical_self hself, ha.nameless] at htarget
    exact ⟨ch', hch', rfl, by rw [chainEdits_of_error htarget hwhy]⟩
  tags := by
    intro occ ho hchained
    obtain ⟨rfl, hbody, hkept⟩ := kept_of_refuses hself ha.nameless hc hchained
      (ha.refused occ ho)
    refine ⟨hbody, _, h.leavesTag_kept hr ho hchained, ?_⟩
    rcases hkept with hkept | hkept
    · exact .inl (by rw [hkept]; rfl)
    · exact .inr (by rw [hkept]; rfl)
  definitions := by
    intro _ occ ho
    rw [definitionEdits, keptDefinition, canonical_self hself, if_pos]
    simpa [ha.nameless] using ha.used
  entries := by
    rw [Record.definition?, if_neg]
    simpa [hloc] using fun _ => ha.used

/-- **A body remains, or it is abandoned.** -/
theorem Accounts.holds_or_abandoned (hv : p.IsVeiled) (hr : r ∈ m.records)
    (hself : r.canonical = r.index) (hc : r.content? = some c)
    (htags : r.name.isSome → r.location = .inline → m.tagsOf r ≠ [])
    (hloc : r.name = none → (r.location = .listDefined ↔ r.uses = [])) :
    m.Holds p names o (m.plan o mode).1.edits r c ∨ m.Abandoned o mode r c := by
  obtain ⟨occ, hocc, hbody, hvisible⟩ := Record.exists_of_content? hc
  by_cases hstays : r.name.isSome ∨ r.uses = []
  · left
    by_cases hmode : mode = .keep
    · -- a record that keeps its name, or is not used, keeps the tag or the definition
      subst hmode
      rcases hocc with hdef | hlisted
      · obtain ⟨ho, hfull⟩ := Record.mem_definitions_iff.mp hdef
        obtain ⟨b, hform⟩ := Occurrence.exists_full hfull
        obtain rfl : b = c := by
          rw [Occurrence.body?, hform] at hbody
          exact Option.some.inj hbody
        exact h.holds_of_visible hr hself ho hform hvisible rfl
      · obtain ⟨t, w, -, hin, hshows, hleaves⟩ :=
          h.exists_shown_definition (o := o) hv hr hself hstays hlisted hbody rfl
        exact .definition hlisted hin hshows hleaves
    · cases hplace : r.location with
      | listDefined => exact h.holds_of_definition? hmode hr hplace hself hc
      | inline =>
        have hname : r.name.isSome := by
          refine hstays.elim id fun huses => ?_
          by_contra hnone
          rw [(hloc (by simpa using hnone)).mpr huses] at hplace
          cases hplace
        exact h.holds_of_first hmode hr hself hname hc hplace (htags hname hplace)
  · obtain ⟨hname, hused⟩ := not_or.mp hstays
    have hname : r.name = none := by simpa using hname
    by_cases hholds : m.Holds p names o (m.plan o mode).1.edits r c
    · exact .inl hholds
    · exact .inr ⟨hname, hused, fun occ ho =>
        (h.holds_or_refuses hr hself hname hc ho).resolve_left hholds⟩

end Holds

end Model

/-- **Every body remains unless it is abandoned, and one that is abandoned is gone.**  This
holds of each reference that stands for itself once names have been changed, identities merged
and twins pointed at the first. -/
theorem bodies_remain_unless_abandoned (o : Options) (title : Option Text) (t : Text) :
    ∀ r ∈ (transform o title t).placed.records, r.canonical = r.index →
      ∀ c, r.content? = some c →
        ((transform o title t).placed.Holds (Page.ofText t) o.listNames.toList o
            (transform o title t).plan.edits r c ∨
          (transform o title t).placed.Abandoned o (transform o title t).mode r c) ∧
        ((transform o title t).placed.Abandoned o (transform o title t).mode r c →
          (transform o title t).placed.Dropped (Page.ofText t) o.listNames.toList o
            (transform o title t).mode r c) := by
  intro r hr hself c hc
  have h := accounts_placed o title t
  have hs := settled_placed o title t
  rw [plan_eq]
  have hloc : r.name = none → (r.location = .listDefined ↔ r.uses = []) := by
    intro hname
    rw [placed_eq] at h hs hr
    exact Model.location_nameless h hs hr hself hname hc
  have htags : r.name.isSome → r.location = .inline →
      (transform o title t).placed.tagsOf r ≠ [] := by
    intro hname hinline
    rw [placed_eq] at hr ⊢
    exact Model.exists_tag_of_inline hr hself hname (by rw [hc]; rfl) hinline
  exact ⟨h.holds_or_abandoned (Page.isVeiled_ofText t) hr hself hc htags hloc,
    fun ha => h.dropped hr hself hc (hloc ha.nameless) ha⟩

/-- A reference that loses its name leaves its body at the tag that has cited it. -/
theorem body_remains_at_a_tag :
    let o : Options := { renameMap := [("a".toList, none)] }
    let t := "<ref name=\"a\"/>\x7b\x7breflist|refs=<ref name=\"a\">body</ref>\x7d\x7d".toList
    let run := transform o none t
    ∃ r ∈ run.placed.records, r.name = none ∧ r.content? = some "body".toList ∧
      run.placed.Holds (Page.ofText t) defaultListNames o run.plan.edits r "body".toList := by
  intro o t run
  obtain ⟨r, hr, hself, hname, hwritten, hbody, occ, ho, hform⟩ : ∃ r ∈ run.placed.records,
      r.canonical = r.index ∧ r.name = none ∧ r.writtenName = some "a".toList ∧
        r.content? = some "body".toList ∧ ∃ occ ∈ r.uses, occ.form = .bare := by decide +kernel
  refine ⟨r, hr, hname, hbody, ?_⟩
  refine (bodies_remain_unless_abandoned o none t r hr hself _ hbody).1.resolve_right fun ha => ?_
  have hrefuses := ha.refused occ ho
  rw [Model.Refuses, hform, hwritten] at hrefuses
  cases hrefuses.2

/-- A chain that stays as it is, although its reference loses its name: the definition goes
because the reference is used, and no use takes the body. -/
theorem dropped_body :
    let run := transform { renameMap := [("a".toList, none)] } none
      "\x7b\x7br|a|lang=x\x7d\x7d\x7b\x7breflist|refs=<ref name=\"a\">body</ref>\x7d\x7d".toList
    (∃ r ∈ run.placed.records, r.canonical = r.index ∧ r.content? = some "body".toList) ∧
      run.text = "\x7b\x7br|a|lang=x\x7d\x7d\x7b\x7breflist|refs=\x7d\x7d".toList := by
  decide +kernel

end CiteMarkup
