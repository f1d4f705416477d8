import CiteMarkup.Proofs.Chain.Expansion
import CiteMarkup.Proofs.Transform.Leaves
/-!
# What is left of occurrences that stay

If bodies stay where they are, each tag is left with what its own record says
(`leavesTag_kept`), and a tag or a definition that has a body shows it (`shows_keptTag`,
`exists_shown_definition`).  In all modes a chain with a name whose reference has lost its name
shows the body of the reference, or stays as it is (`chain_shows`).
-/

namespace CiteMarkup

variable {b c w : Text} {occ : Occurrence}

/-! ## 1. Bodies up to cleaning -/

/-- `b` is the body `c` but for what tidying it or writing it anew changes. -/
def Renders (c b : Text) : Prop := tidy b = tidy c ∨ ∃ n, b = cleaned n c

/-- The text `w` at an occurrence shows the body `c`: it is what stands there and has the body,
or a tag written around it. -/
def Page.Shows (p : Page) (occ : Occurrence) (c w : Text) : Prop :=
  ∃ b, Renders c b ∧
    (occ.body? = some b ∧ w = p.raw.cut occ.span ∨ ∃ name group, w = tagAround name group b)

theorem renders_keptBody (o : Options) (hb : occ.body? = some b) (h : tidy b = tidy c) :
    Renders c (o.keptBody occ) := by
  rw [Options.keptBody, hb]
  cases o.normalizeBodies with
  | false => exact .inl h
  | true =>
    refine .inr ⟨true, ?_⟩
    simp only [cleaned, normalized, Option.getD_some, if_true, h]

theorem shows_fullTag (p : Page) (occ : Occurrence) (c : Text) (name group : Option Text)
    (normalize : Bool) : p.Shows occ c (fullTag name group c normalize) :=
  ⟨cleaned normalize c, .inr ⟨normalize, rfl⟩, .inr ⟨name, group, rfl⟩⟩

theorem Occurrence.visibleBody?_eq_some :
    occ.visibleBody? = some b ↔ occ.body? = some b ∧ b.isBlankOnly = false := by
  rw [visibleBody?, Option.bind_eq_some_iff]
  constructor
  · rintro ⟨b', hb, hif⟩
    split at hif
    · cases hif
    · rename_i hblank
      obtain rfl := Option.some.inj hif
      exact ⟨hb, Bool.eq_false_iff.mpr hblank⟩
  · rintro ⟨hb, hblank⟩
    exact ⟨b, hb, by rw [hblank]; rfl⟩

theorem Occurrence.exists_full (h : occ.isFull = true) : ∃ b, occ.form = .full b := by
  cases hform : occ.form <;> simp [isFull, hform] at h ⊢

theorem Occurrence.exists_listed (h : occ.isListed = true) :
    ∃ b own, occ.form = .listed b own := by
  cases hform : occ.form <;> simp [isListed, hform] at h ⊢

/-- The body of a record is that of one of its tags or definitions. -/
theorem Record.exists_of_content? {r : Record} (h : r.content? = some c) :
    ∃ occ, (occ ∈ r.definitions ∨ occ ∈ r.listed) ∧ occ.body? = some c ∧
      c.isBlankOnly = false := by
  obtain ⟨occ, hmem, hocc⟩ := List.exists_of_findSome?_eq_some h
  rw [mem_sortByStart, List.mem_append] at hmem
  exact ⟨occ, hmem, Occurrence.visibleBody?_eq_some.mp hocc⟩

/-! ## 2. Tags -/

/-- A tag that has the body shows it, whatever becomes of its reference. -/
theorem shows_keptTag (p : Page) (o : Options) (r s : Record)
    (hb : occ.visibleBody? = some b) (h : tidy b = tidy c) :
    p.Shows occ c ((o.keptTag? r s occ).getD (p.raw.cut occ.span)) := by
  have hbody := (Occurrence.visibleBody?_eq_some.mp hb).1
  have around : p.Shows occ c (tagAround s.name occ.group (o.keptBody occ)) :=
    ⟨_, renders_keptBody o hbody h, .inr ⟨_, _, rfl⟩⟩
  unfold Options.keptTag?
  split
  · exact ⟨b, .inl h, .inl ⟨hbody, rfl⟩⟩
  · split
    · rw [hb]
      simpa using around
    · exact around

namespace Model

variable {m : Model} {p : Page} {names : List Text} {o : Options} {mode : Mode} {r : Record}

/-- What a use reads if bodies stay; none if it stays as it is. -/
def keptText? (m : Model) (o : Options) (r : Record) (occ : Occurrence) : Option Text :=
  o.keptUse? r (m.canonical r) ((m.canonical r).index ≠ r.index) occ

theorem mem_useEdits_keep {e : Edit} : e ∈ m.useEdits o .keep r ↔
    ∃ occ ∈ r.uses, ∃ w, m.keptText? o r occ = some w ∧ e ∈ m.page.change occ.span w := by
  rw [useEdits, List.mem_flatMap]
  refine exists_congr fun occ => and_congr_right fun _ => ?_
  unfold keptText?
  split
  · rename_i w hw
    constructor
    · exact fun he => ⟨w, hw, he⟩
    · rintro ⟨w', hw', he⟩
      obtain rfl := Option.some.inj (hw.symm.trans hw')
      exact he
  · rename_i hnone
    constructor
    · intro he
      cases he
    · rintro ⟨w, hw, -⟩
      rw [hnone] at hw
      cases hw

/-- The names of a chain are not edited as uses. -/
theorem isChained_of_keptText? {w : Text} (h : m.keptText? o r occ = some w) :
    occ.isChained = false := by
  cases hchained : occ.isChained with
  | false => rfl
  | true =>
    rw [keptText?, Options.keptUse?, if_pos hchained] at h
    cases h

/-- A tag with content of a record that stands for itself. -/
theorem keptText?_full (hself : r.canonical = r.index) (hform : occ.form = .full b) :
    m.keptText? o r occ = o.keptTag? r r occ := by
  simp [keptText?, Options.keptUse?, canonical_self hself, Occurrence.isChained,
    Occurrence.isFull, hform]

/-- A tag without content of a record that stands for itself. -/
theorem keptText?_bare (hself : r.canonical = r.index) (hform : occ.form = .bare) :
    m.keptText? o r occ = o.keptCitation? r r false occ := by
  simp [keptText?, Options.keptUse?, canonical_self hself, Occurrence.isChained,
    Occurrence.isFull, hform]

section Kept

variable (h : m.Accounts p names)
include h

/-- **What is left of a tag that stays** is what its record says. -/
theorem Accounts.leavesTag_kept (hr : r ∈ m.records) (ho : occ ∈ r.uses)
    (hc : occ.isChained = false) :
    p.LeavesTag names (m.plan o .keep).1.edits occ
      ((m.keptText? o r occ).getD (p.raw.cut occ.span)) := by
  obtain ⟨tag, htag, rfl⟩ := h.exists_tag hr ho hc
  refine ⟨tag, htag, rfl, h.leaves_tag htag ?_ ?_⟩
  · intro s hs e he hspan
    obtain ⟨occ, ho', w, hw, he⟩ := mem_useEdits_keep.mp he
    -- only the tag itself is edited there
    obtain ⟨tag', -, rfl⟩ := h.exists_tag hs ho' (isChained_of_keptText? hw)
    have hstart : tag'.span.start = tag.span.start := by
      rw [← hspan, Page.span_of_mem_change he]
      rfl
    obtain ⟨rfl, heq⟩ := h.unique_use hs hr ho' ho
      (by rw [RefTag.seat_occurrence, RefTag.seat_occurrence, hstart])
    rw [← heq, hw, Option.getD_some, (Page.mem_change.mp he).2]
  · cases hw : m.keptText? o r tag.occurrence with
    | none => exact .inl rfl
    | some w =>
      by_cases hcut : p.raw.cut tag.span = w
      · exact .inl hcut
      · refine .inr ⟨r, hr, mem_useEdits_keep.mpr ⟨_, ho, w, hw, ?_⟩⟩
        rw [h.page_eq]
        exact Page.mem_change.mpr ⟨hcut, rfl⟩

/-! ## 3. Definitions -/

/-- **A definition that stays shows its body**: its reference has not been merged away, and
has kept its name or is not used. -/
theorem Accounts.exists_shown_definition (hv : p.IsVeiled) (hr : r ∈ m.records)
    (hself : r.canonical = r.index) (hstays : r.name.isSome ∨ r.uses = [])
    (ho : occ ∈ r.listed) (hb : occ.body? = some b) (heq : tidy b = tidy c) :
    ∃ t w, .list t ∈ p.tokens names ∧ occ ∈ p.listedIn t ∧ p.Shows occ c w ∧
      p.Leaves names (m.plan o .keep).1.edits (.list t) occ.span w := by
  obtain ⟨t, ht, hocc⟩ := h.exists_list hr ho
  have hedits : ∃ w, p.Shows occ c w ∧ m.definitionEdits o r occ = p.change occ.span w := by
    have hgoes : ¬ (decide ((m.canonical r).index ≠ r.index) ||
        ((m.canonical r).name.isNone && !r.uses.isEmpty)) = true := by
      rw [canonical_self hself]
      rcases hstays with hname | huses
      · simp [Option.isSome_iff_ne_none.mp hname]
      · simp [huses]
    rw [definitionEdits, keptDefinition, if_neg hgoes]
    split
    · refine ⟨p.raw.cut occ.span, ⟨b, .inl heq, .inl ⟨hb, rfl⟩⟩, ?_⟩
      rw [Page.change, if_pos rfl]
    · rw [h.page_eq]
      exact ⟨_, ⟨_, renders_keptBody o hb heq, .inr ⟨_, _, rfl⟩⟩, rfl⟩
  obtain ⟨w, hshows, hedits⟩ := hedits
  exact ⟨t, w, ht, hocc, hshows, h.leaves_definition hv hr ho ht hocc hedits⟩

/-! ## 4. Chains -/

/-- A use in a chain is a name of a chain of the page. -/
theorem Accounts.exists_chain (hr : r ∈ m.records) (ho : occ ∈ r.uses) {id i : Nat}
    (hform : occ.form = .chained id i) :
    ∃ ch ∈ m.chains, ch.id = id ∧ ∃ e, ch.names[i]? = some e := by
  obtain ⟨hs, -⟩ := h.mem_survey_of_use hr ho
  rw [Page.survey_eq] at hs
  rcases Page.mem_occurrencesAmong.mp hs with ⟨t, -, rfl⟩ | ⟨t, -, ht⟩ | ⟨ch, hch, hoc⟩
  · unfold RefTag.occurrence at hform
    cases hcontent : t.content <;> simp [hcontent] at hform
  · obtain ⟨_, _, _, _, -, -, -, rfl⟩ := Page.exists_of_mem_listedIn ht
    cases hform
  · obtain ⟨j, e, he, rfl⟩ := Chain.mem_occurrences.mp hoc
    obtain ⟨hid, rfl⟩ := Form.chained.inj hform
    refine ⟨ch, ?_, hid, e, he⟩
    rw [h.chains_eq, Page.survey_eq]
    exact hch

/-- The record with a name of a chain among its uses is the one that the name cites. -/
theorem Accounts.citedBy?_eq (hr : r ∈ m.records) (ho : occ ∈ r.uses) {id i : Nat}
    (hform : occ.form = .chained id i) : m.citedBy? id i = some r := by
  cases hfind : m.citedBy? id i with
  | none =>
    have hno := List.find?_eq_none.mp hfind r hr
    exact absurd (List.any_eq_true.mpr ⟨occ, ho, decide_eq_true hform⟩) hno
  | some s =>
    have hs := List.mem_of_find?_eq_some hfind
    have hany : (s.uses.any fun o => o.form = .chained id i) = true :=
      List.find?_some (p := fun r : Record => r.uses.any fun o => o.form = .chained id i) hfind
    obtain ⟨occ', ho', hform'⟩ := List.any_eq_true.mp hany
    have hseat : occ'.seat = occ.seat := by
      rw [Occurrence.seat, Occurrence.seat, of_decide_eq_true hform', hform]
    rw [(h.unique_use hs hr ho' ho hseat).1]

/-- A name of a chain has the record that it cites for its target. -/
theorem Accounts.getElem?_targets (hr : r ∈ m.records) (ho : occ ∈ r.uses) {ch : Chain}
    {i : Nat} (hform : occ.form = .chained ch.id i) {e : PlacedEntry}
    (he : ch.names[i]? = some e) :
    (m.targets ch)[i]? = some ⟨(m.canonical r).name, (m.canonical r).content?⟩ := by
  rw [targets, List.getElem?_mapIdx, he, Option.map_some, h.citedBy?_eq hr ho hform]

omit h in
theorem admits_targets (m : Model) (ch : Chain) : ch.admits (m.targets ch) = true := by
  simp [Chain.admits, targets]

omit h in
/-- A chain with a name without a reference name is to be expanded. -/
theorem isToExpand_of_nameless {ch : Chain} {body : Option Text}
    (ht : ⟨none, body⟩ ∈ m.targets ch) (useChains : Option Bool) :
    ch.isToExpand useChains (m.targets ch) = true := by
  have hnames : ch.names ≠ [] := by
    rintro hnil
    rw [targets, hnil] at ht
    cases ht
  rw [Chain.isToExpand, mustExpand, Bool.and_eq_true, Bool.or_eq_true]
  exact ⟨by simpa using hnames, .inr (List.any_eq_true.mpr ⟨_, ht, rfl⟩)⟩

/-- **A chain shows the bodies of references that have lost their names, or stays.** -/
theorem Accounts.chain_shows (o : Options) (mode : Mode) {ch : Chain} (hch : ch ∈ m.chains)
    (hc : c.isBlankOnly = false) (ht : ⟨none, some c⟩ ∈ m.targets ch) :
    (∃ why, ch.expand (m.targets ch) = .error why) ∨
      ∃ w group, fullTag none group c false <:+: w ∧
        p.Leaves names (m.plan o mode).1.edits (.chain ch.template) ch.template.span w := by
  have hne : c ≠ [] := by
    rintro rfl
    cases hc
  cases hexpand : ch.expand (m.targets ch) with
  | error why => exact .inl ⟨why, rfl⟩
  | ok result =>
    obtain ⟨w, group, rfl, hinfix⟩ :=
      Chain.fullTag_infix_expand (admits_targets m ch) ht hne hexpand
    refine .inr ⟨w, group, hinfix, h.leaves_chain hch ?_⟩
    rw [chainEdits, Chain.edits, if_pos (isToExpand_of_nameless ht _), hexpand, h.page_eq]
    simp

omit h in
/-- A chain that stays although a name has lost its reference has no edit. -/
theorem chainEdits_of_error {ch : Chain} {body : Option Text} {why : Abstention}
    (ht : ⟨none, body⟩ ∈ m.targets ch) (hexpand : ch.expand (m.targets ch) = .error why) :
    m.chainEdits o ch = ([], [.kept why]) := by
  rw [chainEdits, Chain.edits, if_pos (isToExpand_of_nameless ht _), hexpand]
  rfl

end Kept
end Model
end CiteMarkup
