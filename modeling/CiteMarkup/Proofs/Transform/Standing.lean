import CiteMarkup.Proofs.Transform.Again
import CiteMarkup.Proofs.Transform.Distinct
/-!
# Bodies that stay, again

If bodies stay and references keep their names, a tag changes for two reasons: its body is
normalized, or it becomes a chain (`Options.restyled?`).  What is left of each mark is such that
neither is to be done again (`signs_left_standing`), so a second run finds nothing to edit
(`plan_edits_standing`).
-/

namespace CiteMarkup

/-- What an occurrence reads if bodies stay and its reference keeps its name: bodies may be
normalized, and citations may become chains.  None if it stays as it is. -/
def Options.restyled? (o : Options) (occ : Occurrence) : Option Text :=
  match occ.form with
  | .full b =>
    if o.normalizeBodies then some (tagAround occ.name occ.group (normalized b)) else none
  | .listed b own =>
    if o.normalizeBodies then
      some (tagAround occ.name (if own then occ.group else none) (normalized b))
    else none
  | .bare =>
    if o.useChains = some true then occ.name.map fun n => citation (some n) occ.group true else none
  | .chained _ _ => none

/-- Bodies can be normalized where they stand: those of tags can stand there and are left as they
are when they are normalized again, and those in lists are normal already. -/
structure NormalizesInPlace (names : List Text) (t : Text) : Prop where
  tags : ∀ tag, .tag tag ∈ (Page.ofText t).tokens names → ∀ b i, tag.content = .body b i →
    IsBody names (normalized b) ∧ normalized (normalized b) = normalized b
  lists : ∀ l, .list l ∈ (Page.ofText t).tokens names → ∀ occ ∈ (Page.ofText t).listedIn l,
    ∀ b own, occ.form = .listed b own →
      t.cut occ.span = tagAround occ.name (if own then occ.group else none) (normalized b)

/-- The sign is that of what is left of a mark if bodies stay: it tells of the same names and
groups, and nothing in it is to be written anew. -/
structure Sign.IsRestyled (σ : Sign) (o : Options) (p : Page) (k : Token) : Prop where
  alike : σ.said.map (fun y => useKey y.1) = (p.tells k).map fun y => useKey y.1
  settled : ∀ y ∈ σ.said, ∀ w ∈ o.restyled? y.1, y.2 = w
  chain : ∀ c, σ.mark = .chain c → (o.useChains = some true ∧
    ∀ n ∈ citedNames c.paramText, fitsChain n = true) ∨ σ = p.sign k
  joins : σ.mark.joins = true → k.joins = true
  bodies : ∀ y ∈ σ.said, ∀ x, y.1.given? = some x →
    ∃ y₀ ∈ p.tells k, ∃ x₀, y₀.1.given? = some x₀ ∧ x.IsVersionOf o.normalizeBodies x₀

/-- What is more than blanks once it has been normalized has been so before. -/
theorem isBlankOnly_of_normalized {b : Text} (h : Text.isBlankOnly (normalized b) = false) :
    b.isBlankOnly = false := by
  by_contra hblank
  have hblank : b.isBlankOnly = true := by simpa using hblank
  have htidy : tidy b = [] := by
    by_contra hne
    have hsome := not_isBlankOnly (Text.trimmed_trim _) hne
    have hnone : (tidy b).isBlankOnly = true := List.all_eq_true.mpr fun c hc =>
      List.all_eq_true.mp hblank c ((tidy_sublist b).subset hc)
    exact Bool.false_ne_true (hsome.symm.trans hnone)
  rw [normalized, htidy] at h
  cases h

namespace Model

variable {m m' : Model} {names : List Text} {t t' w : Text} {o : Options}
variable {r : Record} {occ : Occurrence} {k : Token} {tag : RefTag}

/-! ## 1. Occurrences that are restyled -/

theorem restyled?_full {b : Text} (hform : occ.form = .full b) : o.restyled? occ =
    if o.normalizeBodies then some (tagAround occ.name occ.group (normalized b)) else none := by
  rw [Options.restyled?, hform]

theorem restyled?_listed {b : Text} {own : Bool} (hform : occ.form = .listed b own) :
    o.restyled? occ = if o.normalizeBodies then
      some (tagAround occ.name (if own then occ.group else none) (normalized b)) else none := by
  rw [Options.restyled?, hform]

theorem restyled?_bare (hform : occ.form = .bare) : o.restyled? occ =
    if o.useChains = some true then occ.name.map fun n => citation (some n) occ.group true
    else none := by
  rw [Options.restyled?, hform]

@[simp] theorem restyled?_told (o : Options) (occ : Occurrence) :
    o.restyled? occ.told = o.restyled? occ := by
  obtain ⟨_, form, _, _⟩ := occ
  cases form <;> rfl

theorem keptText?_eq_restyled (hself : r.canonical = r.index) (hwritten : r.writtenName = r.name)
    (hname : occ.name = r.name) (hgroup : occ.group = r.group) (hlisted : occ.isListed = false) :
    m.keptText? o r occ = o.restyled? occ := by
  have hstripped := isStripped_of_writtenName hwritten
  cases hform : occ.form with
  | listed b own => simp [Occurrence.isListed, hform] at hlisted
  | chained id i =>
    simp [keptText?, Options.keptUse?, Options.restyled?, Occurrence.isChained, hform]
  | full b =>
    rw [keptText?_full hself hform, Options.keptTag?, restyled?_full hform, hstripped]
    cases hnormal : o.normalizeBodies with
    | false => simp [hname]
    | true =>
      have hbody : o.keptBody occ = normalized b := by
        simp [Options.keptBody, Occurrence.body?, hform, hnormal]
      rw [hbody, hname]
      cases r.content? <;> simp
  | bare =>
    rw [keptText?_bare hself hform, Options.keptCitation?, restyled?_bare hform, hstripped,
      hname, hgroup]
    cases r.name with
    | none => simp
    | some n =>
      by_cases hchains : o.useChains = some true
      · simp [hchains]
      · simp [hchains]

theorem definitionEdits_eq_restyled (hself : r.canonical = r.index)
    (hstays : r.name = none → r.uses = []) (hname : occ.name = r.name)
    (hlisted : occ.isListed = true) :
    m.definitionEdits o r occ = (o.restyled? occ).elim [] (m.page.change occ.span) := by
  obtain ⟨b, own, hform⟩ := Occurrence.exists_listed hlisted
  rw [definitionEdits, keptDefinition, canonical_self hself, if_neg (by simpa using hstays),
    restyled?_listed hform, hform, hname]
  cases hnormal : o.normalizeBodies with
  | false => simp
  | true =>
    have hbody : o.keptBody occ = normalized b := by
      simp [Options.keptBody, Occurrence.body?, hform, hnormal]
    rw [hbody, if_neg (by simp)]
    rfl

/-- **If references keep their names, the edits are those of occurrences that are restyled.** -/
theorem IsFiled.exists_restyled (h : m.IsFiled .keep (Page.ofText t) names)
    (hwritten : ∀ r ∈ m.records, r.writtenName = r.name)
    (hchains : ∀ c ∈ m.chains, (m.chainEdits o c).1 = []) {e : Edit}
    (he : e ∈ (m.plan o .keep).1.edits) :
    ∃ r ∈ m.records, ∃ occ, (occ ∈ r.uses ∨ occ ∈ r.listed) ∧
      ∃ w, o.restyled? occ = some w ∧ t.cut occ.span ≠ w ∧ e = ⟨occ.span, w⟩ := by
  rw [plan_edits, List.mem_append, List.mem_flatMap] at he
  rcases he with ⟨c, hc, he⟩ | he
  · rw [hchains c hc] at he
    cases he
  · rcases mem_markEdits.mp he with ⟨r, hr, he⟩ | ⟨-, r, hr, occ, ho, he⟩ | ⟨hmove, -⟩
    · obtain ⟨occ, ho, w, hw, he⟩ := mem_useEdits_keep.mp he
      obtain ⟨hn, hg⟩ := h.of_mem hr (.inl ho)
      rw [keptText?_eq_restyled (h.unmerged r hr) (hwritten r hr) hn hg
        (h.mem_survey_of_use hr ho).2] at hw
      obtain ⟨hcut, rfl⟩ := Page.mem_change.mp he
      rw [h.page_eq] at hcut
      exact ⟨r, hr, occ, .inl ho, w, hw, hcut, rfl⟩
    · obtain ⟨hn, -⟩ := h.of_mem hr (.inr ho)
      rw [definitionEdits_eq_restyled (h.unmerged r hr) (fun hnone => ?_) hn
        (h.mem_survey_of_listed hr ho).2] at he
      · cases hw : o.restyled? occ with
        | none => rw [hw] at he; cases he
        | some w =>
          rw [hw] at he
          obtain ⟨hcut, rfl⟩ := Page.mem_change.mp he
          rw [h.page_eq] at hcut
          exact ⟨r, hr, occ, .inr ho, w, hw, hcut, rfl⟩
      · exact (h.nil_of_nameless hr hnone).resolve_left (List.ne_nil_of_mem ho)
    · exact absurd rfl hmove

/-! ## 2. What is left of a mark -/

namespace IsSteady

/-- A definition that would be normalized is normal. -/
theorem cut_of_restyled (hp : o.normalizeBodies = true → NormalizesInPlace names t) {l : Template}
    (hl : .list l ∈ (Page.ofText t).tokens names) (ho : occ ∈ (Page.ofText t).listedIn l)
    (hw : o.restyled? occ = some w) : t.cut occ.span = w := by
  obtain ⟨b, own, hform⟩ := Occurrence.exists_listed (isListed_of_mem_listedIn ho)
  rw [restyled?_listed hform] at hw
  split at hw
  · rename_i hnormal
    rw [(hp hnormal).lists l hl occ ho b own hform]
    exact Option.some.inj hw
  · cases hw

section Left

variable (hm : m.IsSteady names t o) (h : m.IsFiled .keep (Page.ofText t) names)
variable (hp : o.normalizeBodies = true → NormalizesInPlace names t)
include hm h hp

/-- A tag with a body that is normalized is left as one that stays as it is. -/
theorem signs_restyled_full (htag : .tag tag ∈ (Page.ofText t).tokens names) {b : Text} {i : Nat}
    (hcontent : tag.content = .body b i) (hw : o.restyled? tag.occurrence = some w) :
    SelfContained names w ∧
      ∃ σ, signs names w = [σ] ∧ σ.IsRestyled o (Page.ofText t) (.tag tag) := by
  obtain ⟨r, hr, ho, -, -⟩ := IsMovable.exists_tagsOf h.toAccounts h.unmerged htag
  obtain ⟨hn, hg⟩ := h.of_mem hr (.inl ho)
  obtain ⟨hname, hgroup⟩ := hm.attributes r hr
  have hform : tag.occurrence.form = .full b := by rw [RefTag.occurrence, hcontent]
  rw [restyled?_full hform, hn, hg] at hw
  split at hw
  · rename_i hnormal
    obtain rfl := Option.some.inj hw
    obtain ⟨hbody, hagain⟩ := (hp hnormal).tags tag htag b i hcontent
    obtain ⟨tag', hsigns⟩ := signs_tag hname hgroup hbody
    refine ⟨selfContained_tagAround hname hgroup hbody, _, hsigns, ⟨?_, fun y hy v hv => ?_,
      fun c hc => Token.noConfusion hc, fun _ => rfl, fun y hy x hx => ?_⟩⟩
    · exact congrArg (fun x => [x]) (Prod.ext hn.symm hg.symm)
    · obtain rfl := List.mem_singleton.mp hy
      rw [restyled?_full rfl, if_pos hnormal, hagain] at hv
      exact Option.some.inj hv
    · obtain rfl := List.mem_singleton.mp hy
      obtain ⟨c, hc, rfl⟩ := Option.map_eq_some_iff.mp hx
      obtain ⟨hbody', hblank⟩ := Occurrence.visibleBody?_eq_some.mp hc
      obtain rfl : normalized b = c := Option.some.inj hbody'
      have hold : tag.occurrence.body? = some b := by rw [Occurrence.body?, hform]
      refine ⟨_, List.mem_singleton_self _, ⟨tag.occurrence.name, tag.occurrence.group, b⟩, ?_,
        hn, hg, ?_⟩
      · rw [Page.tell, Occurrence.given?, Occurrence.visibleBody?_told,
          Occurrence.visibleBody?_eq_some.mpr ⟨hold, isBlankOnly_of_normalized hblank⟩]
        rfl
      · rw [GivenBody.versions, cleaned, if_pos hnormal]
        exact List.mem_cons_of_mem _ List.mem_cons_self
  · cases hw

omit hp in
/-- A tag that only cites is left as a chain, or as a tag that stays as it is. -/
theorem signs_restyled_bare (htag : .tag tag ∈ (Page.ofText t).tokens names)
    (hcontent : tag.content = .none) (hw : o.restyled? tag.occurrence = some w) :
    SelfContained names w ∧
      ∃ σ, signs names w = [σ] ∧ σ.IsRestyled o (Page.ofText t) (.tag tag) := by
  obtain ⟨r, hr, ho, -, -⟩ := IsMovable.exists_tagsOf h.toAccounts h.unmerged htag
  obtain ⟨hn, hg⟩ := h.of_mem hr (.inl ho)
  obtain ⟨hname, hgroup⟩ := hm.attributes r hr
  have hform : tag.occurrence.form = .bare := by rw [RefTag.occurrence, hcontent]
  rw [restyled?_bare hform, hn, hg] at hw
  split at hw
  · rename_i hchains
    obtain ⟨n, hrn, rfl⟩ := Option.map_eq_some_iff.mp hw
    have halike : ∀ y : Told, y.1.name = some n → y.1.group = r.group →
        [y].map (fun y => useKey y.1) =
          ((Page.ofText t).tells (.tag tag)).map fun y => useKey y.1 := fun y hyn hyg =>
      congrArg (fun x => [x]) (Prod.ext (hyn.trans (hn.trans hrn).symm) (hyg.trans hg.symm))
    have hcitation := Record.citation_eq (o := o) hrn fun hnil => hm.name_ne hr (hnil ▸ hrn)
    have hwish : (o.useChains == some true) = true := by rw [hchains]; rfl
    rw [hwish] at hcitation
    cases hchain : r.citesByChain o with
    | true =>
      rw [hchain, if_pos rfl] at hcitation
      obtain ⟨hself, c, -, hsigns, hcited⟩ := hm.signs_chain hr hrn hchain
      rw [hcitation]
      refine ⟨hself, _, hsigns, ⟨halike _ rfl rfl, fun y hy v hv => ?_, fun c' hc' => ?_,
        fun _ => rfl, fun y hy x hx => ?_⟩⟩
      · obtain rfl := List.mem_singleton.mp hy
        cases hv
      · obtain rfl := Token.chain.inj hc'
        refine .inl ⟨hchains, fun n' hn' => ?_⟩
        rw [hcited, List.mem_singleton] at hn'
        rw [hn']
        exact fits_of_citesByChain hrn hchain
      · obtain rfl := List.mem_singleton.mp hy
        cases hx
    | false =>
      rw [hchain, if_neg Bool.false_ne_true] at hcitation
      rw [hrn] at hname
      obtain ⟨tag', hsigns⟩ := @signs_citation names (some n) r.group hname hgroup rfl
      obtain ⟨hself, -⟩ : SelfContained names _ ∧ _ := givenBodies_citation hname hgroup rfl
      rw [hcitation]
      refine ⟨hself, _, hsigns, ⟨halike _ rfl rfl, fun y hy v hv => ?_,
        fun c hc => Token.noConfusion hc, fun _ => rfl, fun y hy x hx => ?_⟩⟩
      · obtain rfl := List.mem_singleton.mp hy
        rw [restyled?_bare rfl, if_pos hchains] at hv
        exact hcitation.symm.trans (Option.some.inj hv)
      · obtain rfl := List.mem_singleton.mp hy
        cases hx
  · cases hw

/-- A tag that is restyled is left as a tag or a chain that stays as it is. -/
theorem signs_restyled (htag : .tag tag ∈ (Page.ofText t).tokens names)
    (hw : o.restyled? tag.occurrence = some w) :
    SelfContained names w ∧
      ∃ σ, signs names w = [σ] ∧ σ.IsRestyled o (Page.ofText t) (.tag tag) := by
  cases hcontent : tag.content with
  | none => exact hm.signs_restyled_bare h htag hcontent hw
  | body b i => exact hm.signs_restyled_full h hp htag hcontent hw

variable (hwritten : ∀ r ∈ m.records, r.writtenName = r.name)
include hwritten

/-- The edits write tags anew. -/
theorem exists_restyled_tag {e : Edit} (he : e ∈ (m.plan o .keep).1.edits) :
    ∃ tag, .tag tag ∈ (Page.ofText t).tokens names ∧
      ∃ w, o.restyled? tag.occurrence = some w ∧ e = ⟨tag.span, w⟩ := by
  obtain ⟨r, hr, occ, ho, w, hw, hcut, rfl⟩ := h.exists_restyled hwritten hm.chains he
  rcases ho with ho | ho
  · have hchained : occ.isChained = false := by
      cases hform : occ.form <;> simp_all [Occurrence.isChained, Options.restyled?]
    obtain ⟨tag, htag, rfl⟩ := h.exists_tag hr ho hchained
    exact ⟨tag, htag, w, hw, rfl⟩
  · obtain ⟨l, hl, hocc⟩ := h.exists_list hr ho
    exact absurd (cut_of_restyled hp hl hocc hw) hcut

theorem writesMarks_standing : WritesMarks names t (m.plan o .keep).1.edits where
  page := hm.page
  cuts := hm.cuts
  place e he := by
    obtain ⟨tag, htag, w, -, rfl⟩ := hm.exists_restyled_tag h hp hwritten he
    exact .inr ⟨_, htag, rfl⟩
  text e he := by
    obtain ⟨tag, htag, w, hw, rfl⟩ := hm.exists_restyled_tag h hp hwritten he
    exact (hm.signs_restyled h hp htag hw).1

/-- What is left of a tag. -/
theorem settledAt_tag (htag : .tag tag ∈ (Page.ofText t).tokens names) :
    settledAt t (m.plan o .keep).1.edits tag.span =
      (o.restyled? tag.occurrence).getD (t.cut tag.span) := by
  obtain ⟨r, hr, ho, -, -⟩ := IsMovable.exists_tagsOf h.toAccounts h.unmerged htag
  obtain ⟨hn, hg⟩ := h.of_mem hr (.inl ho)
  have hleaves := h.leavesTag_kept (o := o) hr ho (RefTag.isChained_occurrence tag)
  rw [keptText?_eq_restyled (h.unmerged r hr) (hwritten r hr) hn hg
    (h.mem_survey_of_use hr ho).2] at hleaves
  exact (hm.writesMarks_standing h hp hwritten).leftAt_of_leaves htag
    (IsMovable.leaves_of_leavesTag htag hleaves)

/-- Other marks are left as they are. -/
theorem settledAt_other (hk : k ∈ (Page.ofText t).tokens names) (hno : ∀ tag, k ≠ .tag tag) :
    settledAt t (m.plan o .keep).1.edits k.span = t.cut k.span := by
  refine (hm.writesMarks_standing h hp hwritten).leftAt_of_unedited hk fun e he hspan => ?_
  obtain ⟨tag, htag, w, -, rfl⟩ :=
    hm.exists_restyled_tag h hp hwritten (Edit.mem_of_mem_settle he)
  exact hno tag (Page.eq_of_start_eq hk htag (congrArg Span.start hspan).symm)

/-- **What is left of a mark is a mark that stays as it is.** -/
theorem signs_left_standing (hk : k ∈ (Page.ofText t).tokens names) :
    ∃ σ, signs names (settledAt t (m.plan o .keep).1.edits k.span) = [σ] ∧
      σ.IsRestyled o (Page.ofText t) k := by
  have hstands := (hm.writesMarks_standing h hp hwritten).signs_standing hk
  have standing : (∀ y ∈ (Page.ofText t).tells k, ∀ w ∈ o.restyled? y.1, y.2 = w) →
      ((Page.ofText t).sign k).IsRestyled o (Page.ofText t) k := fun hsettled =>
    ⟨rfl, hsettled, fun _ _ => .inr rfl, fun hjoins => (Token.joins_home k).symm.trans hjoins,
      fun y hy x hx => ⟨y, hy, x, hx, rfl, rfl, List.mem_cons_self⟩⟩
  cases k with
  | tag tag =>
    rw [Token.span_tag, hm.settledAt_tag h hp hwritten hk]
    cases hw : o.restyled? tag.occurrence with
    | some w => exact (hm.signs_restyled h hp hk hw).2
    | none =>
      refine ⟨_, hstands.2, standing fun y hy w hv => ?_⟩
      obtain rfl := List.mem_singleton.mp hy
      rw [Page.tell, restyled?_told, hw] at hv
      cases hv
  | chain c =>
    rw [hm.settledAt_other h hp hwritten hk (by simp)]
    refine ⟨_, hstands.2, standing fun y hy w hv => ?_⟩
    obtain ⟨occ, ho, rfl⟩ := List.mem_map.mp hy
    obtain ⟨i, e, -, rfl⟩ := Chain.mem_occurrences.mp ho
    cases hv
  | locator c =>
    rw [hm.settledAt_other h hp hwritten hk (by simp)]
    exact ⟨_, hstands.2, standing fun y hy => by cases hy⟩
  | list l =>
    rw [hm.settledAt_other h hp hwritten hk (by simp)]
    refine ⟨_, hstands.2, standing fun y hy w hv => ?_⟩
    rw [← Page.told_listedIn] at hy
    obtain ⟨occ, ho, rfl⟩ := List.mem_map.mp hy
    rw [Page.tell, restyled?_told] at hv
    exact cut_of_restyled hp hk ho hv

/-! ## 3. The new page -/

/-- Nothing is added to the page. -/
theorem addedAtEnd_standing : addedAtEnd t (Edit.settle (m.plan o .keep).1.edits) = [] := by
  rw [addedAtEnd, List.map_eq_nil_iff, List.filter_eq_nil_iff]
  intro e he hend
  obtain ⟨tag, htag, w, -, rfl⟩ := hm.exists_restyled_tag h hp hwritten (Edit.mem_of_mem_settle he)
  have hlt := (Page.span_of_mem_tokens htag).1
  have hempty : tag.span = Span.empty t.length := of_decide_eq_true hend
  rw [Token.span_tag, hempty] at hlt
  exact absurd hlt (Nat.lt_irrefl _)

variable (ht' : Edit.applyAll t (m.plan o .keep).1.edits = t')
include ht'

/-- A sign of the new page is that of what is left of a mark. -/
theorem exists_of_mem_signs {σ : Sign} (hσ : σ ∈ signs names t') :
    ∃ k ∈ (Page.ofText t).tokens names, σ.IsRestyled o (Page.ofText t) k := by
  rw [← ht', (hm.writesMarks_standing h hp hwritten).signs_edited,
    hm.addedAtEnd_standing h hp hwritten, List.flatMap_nil, List.append_nil, List.mem_flatMap] at hσ
  obtain ⟨k, hk, hσ⟩ := hσ
  obtain ⟨σ', hsigns, hrestyled⟩ := hm.signs_left_standing h hp hwritten hk
  rw [hsigns, List.mem_singleton] at hσ
  exact ⟨k, hk, hσ ▸ hrestyled⟩

/-- What occurs on the new page is told by what is left of a mark. -/
theorem exists_of_mem_survey {occ' : Occurrence}
    (ho' : occ' ∈ ((Page.ofText t').survey names).occurrences) :
    ∃ k ∈ (Page.ofText t).tokens names, ∃ σ : Sign,
      (Page.ofText t').tell occ' ∈ σ.said ∧ σ.IsRestyled o (Page.ofText t) k := by
  have hsaid : (Page.ofText t').tell occ' ∈ saidIn names t' := by
    rw [saidIn_eq]
    exact List.mem_map_of_mem ho'
  obtain ⟨σ, hσ, hy⟩ := List.mem_flatMap.mp hsaid
  obtain ⟨k, hk, hrestyled⟩ := hm.exists_of_mem_signs h hp hwritten ht' hσ
  exact ⟨k, hk, σ, hy, hrestyled⟩

omit hm h hp hwritten ht' in
/-- What a mark tells occurs on the page. -/
theorem exists_of_mem_tells (hk : k ∈ (Page.ofText t).tokens names) {y : Told}
    (hy : y ∈ (Page.ofText t).tells k) :
    ∃ occ ∈ ((Page.ofText t).survey names).occurrences, (Page.ofText t).tell occ = y := by
  have hold : y ∈ saidIn names t := List.mem_flatMap.mpr ⟨_, List.mem_map_of_mem hk, hy⟩
  rw [saidIn_eq] at hold
  exact List.mem_map.mp hold

/-- What occurs on the new page has the name and the group of something on the old page. -/
theorem exists_alike_standing {occ' : Occurrence}
    (ho' : occ' ∈ ((Page.ofText t').survey names).occurrences) :
    ∃ occ ∈ ((Page.ofText t).survey names).occurrences, useKey occ = useKey occ' := by
  obtain ⟨k, hk, σ, hy, hrestyled⟩ := hm.exists_of_mem_survey h hp hwritten ht' ho'
  have hkey := List.mem_map_of_mem (f := fun y : Told => useKey y.1) hy
  rw [hrestyled.alike] at hkey
  obtain ⟨y, hy, heq⟩ := List.mem_map.mp hkey
  obtain ⟨occ, ho, rfl⟩ := exists_of_mem_tells hk hy
  exact ⟨occ, ho, heq⟩

/-- **The bodies of the new page are those of the old page**, as they stand or cleaned. -/
theorem versions_standing {x : GivenBody} (hx : x ∈ givenBodies names t') :
    ∃ x₀ ∈ givenBodies names t, x.IsVersionOf o.normalizeBodies x₀ := by
  obtain ⟨occ', ho', hgiven⟩ := mem_givenBodies.mp hx
  obtain ⟨k, hk, σ, hy, hrestyled⟩ := hm.exists_of_mem_survey h hp hwritten ht' ho'
  have htold : ∀ occ : Occurrence, occ.told.given? = occ.given? := fun occ => by
    simp [Occurrence.given?]
  obtain ⟨y, hy, x₀, hx₀, hversion⟩ := hrestyled.bodies _ hy x ((htold occ').trans hgiven)
  obtain ⟨occ, ho, rfl⟩ := exists_of_mem_tells hk hy
  exact ⟨x₀, mem_givenBodies.mpr ⟨occ, ho, (htold occ).symm.trans hx₀⟩, hversion⟩

/-- **If bodies stay, citations that stand apart do so on the new page.** -/
theorem scattered_standing (hscattered : (Page.ofText t).Scattered names) :
    (Page.ofText t').Scattered names := by
  rw [← ht']
  refine (hm.writesMarks_standing h hp hwritten).scattered_edited (fun k hk => ?_)
    (fun σ hσ => ?_) hscattered
  · obtain ⟨σ, hsigns, hrestyled⟩ := hm.signs_left_standing h hp hwritten hk
    exact ⟨σ, hsigns, hrestyled.joins⟩
  · rw [hm.addedAtEnd_standing h hp hwritten] at hσ
    cases hσ

/-- **If bodies stay, a second run finds nothing to edit.** -/
theorem plan_edits_standing (h' : m'.IsFiled .keep (Page.ofText t') names)
    (hwritten' : ∀ r ∈ m'.records, r.writtenName = r.name) : (m'.plan o .keep).1.edits = [] := by
  have hchains : ∀ c ∈ m'.chains, (m'.chainEdits o c).1 = [] := by
    intro c' hc'
    have hσ : (Page.ofText t').sign (.chain c'.template) ∈ signs names t' :=
      List.mem_map_of_mem (h'.mem_chains hc').1
    obtain ⟨k, hk, hrestyled⟩ := hm.exists_of_mem_signs h hp hwritten ht' hσ
    refine h.chainEdits_again h' hm.chains hc' ((hrestyled.chain _ rfl).imp_right fun hsign => ?_)
    have hhome : (Token.chain c'.template).home = k.home := congrArg Sign.mark hsign
    cases k with
    | chain c => exact ⟨c, hk, hsign⟩
    | tag tag => cases hhome
    | locator c => cases hhome
    | list l => cases hhome
  refine List.eq_nil_iff_forall_not_mem.mpr fun e he => ?_
  obtain ⟨r', hr', occ', ho', w, hw, hcut, rfl⟩ := h'.exists_restyled hwritten' hchains he
  have hsurvey : occ' ∈ ((Page.ofText t').survey names).occurrences :=
    ho'.elim (fun ho => (h'.mem_survey_of_use hr' ho).1)
      fun ho => (h'.mem_survey_of_listed hr' ho).1
  obtain ⟨k, -, σ, hy, hrestyled⟩ := hm.exists_of_mem_survey h hp hwritten ht' hsurvey
  refine hcut (hrestyled.settled _ hy w ?_)
  rw [Page.tell, restyled?_told]
  exact hw

end Left

end IsSteady
end Model
end CiteMarkup
