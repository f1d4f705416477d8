import CiteMarkup.Proofs.Transform.Retold
/-!
# Tags and chains when bodies move again

What the new page tells of comes from a tag, a chain or a definition of the old one
(`mem_saidIn_edited`), so its references are references of the old page (`exists_record_alike`).
As they have the bodies and the places that they have had, each tag reads as it is to read
(`useEdits_again`), and chains stay as they are (`chainEdits_again`).
-/

namespace CiteMarkup
namespace Model

section Chains

variable {m m' : Model} {names : List Text} {t t' : Text} {o : Options} {mode : Mode}
variable (h : m.IsFiled mode (Page.ofText t) names)

include h

/-- A chain is written for its own names. -/
theorem IsFiled.map_name_targets {c : Chain} (hc : c ∈ m.chains) :
    (m.targets c).map (·.name) = c.names.map fun e => some e.value :=
  h.toAccounts.map_name_targets hc h.unmerged fun _ hr _ ho _ _ => (h.of_mem hr (.inl ho)).1

/-- A chain in which the names fit has no edit, if chains are wanted. -/
theorem IsFiled.chainEdits_of_fits {c : Chain} (hc : c ∈ m.chains)
    (hwanted : o.useChains = some true)
    (hfits : ∀ n ∈ citedNames c.template.paramText, fitsChain n = true) :
    (m.chainEdits o c).1 = [] := by
  have hnone : c.edits o.useChains (m.targets c) = ([], []) := by
    refine Chain.edits_of_fits (by simp [hwanted]) (h.map_name_targets hc) fun e he =>
      hfits e.value ?_
    rw [citedNames]
    refine List.mem_map_of_mem ?_
    rw [← (h.mem_chains hc).2]
    exact he
  rw [chainEdits, hnone]
  rfl

/-- A chain that reads like a chain of another page is left as it is if that one is. -/
theorem IsFiled.chainEdits_of_sign (h' : m'.IsFiled mode (Page.ofText t') names) {c c' : Chain}
    (hc : c ∈ m.chains) (hc' : c' ∈ m'.chains)
    (hsign : (Page.ofText t').sign (.chain c'.template) =
      (Page.ofText t).sign (.chain c.template))
    (hnone : (m.chainEdits o c).1 = []) : (m'.chainEdits o c').1 = [] := by
  obtain ⟨-, hentries⟩ := h.mem_chains hc
  obtain ⟨-, hentries'⟩ := h'.mem_chains hc'
  have hhome : c'.template.home = c.template.home := Token.chain.inj (congrArg Sign.mark hsign)
  have hcut : t'.cut c'.template.span = t.cut c.template.span := congrArg Sign.text hsign
  obtain ⟨hname', hparams⟩ : c'.template.name = c.template.name ∧
      c'.template.paramText = c.template.paramText := by
    injection hhome with _ hname' hparams
    exact ⟨hname', hparams⟩
  have hsame : c'.entries = c.entries := by rw [hentries', hentries, hparams]
  have hnames : (m'.targets c').map (·.name) = (m.targets c).map (·.name) := by
    rw [h'.map_name_targets hc', h.map_name_targets hc, Chain.names, hsame, Chain.names]
  have hnamed : ∀ target ∈ m.targets c, target.name.isSome := by
    intro target ht
    have hmem := List.mem_map_of_mem (f := Target.name) ht
    rw [h.map_name_targets hc] at hmem
    obtain ⟨e, -, hname⟩ := List.mem_map.mp hmem
    rw [← hname]
    rfl
  have hexpand := Chain.expand_congr hname' hparams hsame hnamed hnames
  have hflat : ∀ (m : Model) (c : Chain), (m.chainEdits o c).1 =
      (c.edits o.useChains (m.targets c)).1.flatMap fun e => m.page.change e.span e.text :=
    fun _ _ => rfl
  -- the chain has been left as it is, and its expansion has not changed
  rw [hflat, Chain.edits, h.page_eq] at hnone
  rw [hflat, Chain.edits, Chain.isToExpand_congr hsame hnames, hexpand, h'.page_eq,
    Chain.renamingEdits_of_named (h'.map_name_targets hc')]
  split
  · rename_i hto
    rw [if_pos hto] at hnone
    cases hresult : c.expand (m.targets c) with
    | error why => rfl
    | ok result =>
      cases result with
      | none => rfl
      | some w =>
        rw [hresult, List.flatMap_singleton, Page.change_eq_nil] at hnone
        rw [List.flatMap_singleton, Page.change_eq_nil]
        exact hcut.trans hnone
  · rfl

/-- **A chain of the new page has no edit** if it has become one as options wish and its names
fit, or if it reads like a chain of the old page, which has none. -/
theorem IsFiled.chainEdits_again (h' : m'.IsFiled mode (Page.ofText t') names)
    (hchains : ∀ c ∈ m.chains, (m.chainEdits o c).1 = []) {c' : Chain} (hc' : c' ∈ m'.chains)
    (hsign : (o.useChains = some true ∧
        ∀ n ∈ citedNames c'.template.home.paramText, fitsChain n = true) ∨
      ∃ c, .chain c ∈ (Page.ofText t).tokens names ∧
        (Page.ofText t').sign (.chain c'.template) = (Page.ofText t).sign (.chain c)) :
    (m'.chainEdits o c').1 = [] := by
  rcases hsign with ⟨hwanted, hfits⟩ | ⟨c₀, hmark, hsign⟩
  · exact h'.chainEdits_of_fits hc' hwanted hfits
  · obtain ⟨c, hc, rfl⟩ := h.exists_chain_of_token hmark
    exact h.chainEdits_of_sign h' hc hc' hsign (hchains c hc)

end Chains

namespace IsSteady

variable {m m' : Model} {names : List Text} {t t' w : Text} {o : Options}
variable {r r' : Record} {k l : Token} {i : Nat} {mode : Mode} {tag : RefTag} {x : Ref}
variable {y : Told} {e : Edit}
variable (hm : m.IsSteady names t o) (h : m.IsFiled mode (Page.ofText t) names)
variable (hmode : mode ≠ .keep) (hname : isNameOf names (canonicalName "reflist".toList) = true)
variable (ht' : Edit.applyAll t (m.plan o mode).1.edits = t')
variable (h' : m'.IsFiled mode (Page.ofText t') names)

/-! ## 1. Tags -/

include hm

theorem movedText?_congr (hr : r ∈ m.records) (hx : r.ref? = some x) (hx' : r'.ref? = some x)
    (hbody : r'.content? = r.content?.map (cleaned o.normalizeBodies))
    (hplace : r'.location = r.location) (i : Nat) :
    movedText? o r' i = movedText? o r i := by
  obtain ⟨hn, hg⟩ := Record.ref?_eq_some.mp hx
  obtain ⟨hn', hg'⟩ := Record.ref?_eq_some.mp hx'
  rw [movedText?, movedText?, Options.movedUse?, Options.movedUse?, hn, hn', hg, hg', hplace,
    hbody]
  cases hc : r.content? with
  | none => rfl
  | some c =>
    have htag : fullTag (some x.1) x.2 (cleaned o.normalizeBodies c) o.normalizeBodies =
        fullTag (some x.1) x.2 c o.normalizeBodies := by
      rw [fullTag, fullTag, hm.cleaned_cleaned hr hc]
    simp only [Option.map_some, htag]

include h hmode hname ht'

/-- **What the new page tells of** is what is left of a tag, a citation in a chain, or a
definition that has been put into a list. -/
theorem mem_saidIn_edited (hy : y ∈ saidIn names t') :
    (∃ tag, .tag tag ∈ (Page.ofText t).tokens names ∧ y.1.name = tag.name? ∧
      y.1.group = tag.group? ∧ y.1.isListed = false ∧
      (tag.name? = none → ∀ b, y.1.visibleBody? = some b →
        y.2 = fullTag none tag.group? b o.normalizeBodies)) ∨
    y.1.isListed = false ∧ y.1.isChained = true ∨
    ∃ d ∈ m.listEntries, y = d.told o.normalizeBodies := by
  have hlists : ∀ {ds : List ListEntry}, (∀ d ∈ ds, d ∈ m.listEntries) →
      y ∈ (o.listStyle.arrange ds).map (·.told o.normalizeBodies) →
        ∃ d ∈ m.listEntries, y = d.told o.normalizeBodies := by
    intro ds hds hmem
    obtain ⟨d, hd, rfl⟩ := List.mem_map.mp hmem
    exact ⟨d, hds d (mem_arrange.mp hd), rfl⟩
  rw [← ht', hm.saidIn_edited h hmode hname, List.mem_append, List.mem_flatMap,
    List.mem_flatMap] at hy
  rcases hy with ⟨k, hk, hy⟩ | ⟨share, hs, hy⟩
  · cases k with
    | tag tag =>
      obtain ⟨occ, hsaid, hn, hg, hl, -, hbody⟩ := hm.said_tag h hmode hname hk
      rw [Token.span_tag, hsaid, List.mem_singleton] at hy
      rw [hy]
      exact .inl ⟨tag, hk, hn, hg, hl, hbody⟩
    | chain c =>
      rw [hm.said_other h hmode hname hk (by simp) (by simp), Page.tells, List.mem_map] at hy
      obtain ⟨occ, ho, rfl⟩ := hy
      refine .inr (.inl ⟨?_, ?_⟩)
      · rw [Page.tell, Occurrence.isListed_told, (Chain.isListed_occurrences ho).1]
      · rw [Page.tell, Occurrence.isChained_told, Chain.isChained_occurrences ho]
    | locator c =>
      rw [hm.said_other h hmode hname hk (by simp) (by simp)] at hy
      cases hy
    | list l =>
      obtain ⟨share, hs, rfl⟩ := exists_listShare m.listEntries [] (h.mem_lists.mpr hk)
      rw [Token.span_list, hm.said_list h hmode hname hs] at hy
      exact .inr (.inr (hlists (fun d hd => ((mem_of_mem_listShares hs).2 d hd).1) hy))
  · rw [hm.said_newList hname hs] at hy
    exact .inr (.inr (hlists (fun d hd => ((mem_of_mem_newShares hs).2.2 d hd).1) hy))

/-- A definition that the new page tells of is one that has been put into a list. -/
theorem exists_entry_of_said (hy : y ∈ saidIn names t') (hl : y.1.isListed = true) :
    ∃ d ∈ m.listEntries, y = d.told o.normalizeBodies := by
  rcases hm.mem_saidIn_edited h hmode hname ht' hy with ⟨_, -, -, -, hno, -⟩ | ⟨hno, -⟩ | hentry
  · rw [hno] at hl
    cases hl
  · rw [hno] at hl
    cases hl
  · exact hentry

/-- A use on the new page is like one on the old page. -/
theorem exists_use_alike {occ' : Occurrence}
    (ho' : occ' ∈ ((Page.ofText t').survey names).occurrences) (hl : occ'.isListed = false) :
    ∃ occ ∈ ((Page.ofText t).survey names).occurrences, useKey occ = useKey occ' := by
  have hmem : occ' ∈ ((Page.ofText t').survey names).occurrences.filter fun occ => !occ.isListed :=
    List.mem_filter.mpr ⟨ho', by rw [hl]; rfl⟩
  have hkey := List.mem_map_of_mem (f := useKey) hmem
  rw [hm.map_useKey_edited h hmode hname ht'] at hkey
  obtain ⟨occ, ho, heq⟩ := List.mem_map.mp hkey
  exact ⟨occ, (List.mem_filter.mp ho).1, heq⟩

/-- What occurs on the new page has the name and the group of something on the old page. -/
theorem exists_alike {occ' : Occurrence}
    (ho' : occ' ∈ ((Page.ofText t').survey names).occurrences) :
    ∃ occ ∈ ((Page.ofText t).survey names).occurrences, useKey occ = useKey occ' := by
  cases hl : occ'.isListed with
  | false => exact hm.exists_use_alike h hmode hname ht' ho' hl
  | true =>
    have hsaid : (Page.ofText t').tell occ' ∈ saidIn names t' := by
      rw [saidIn_eq]
      exact List.mem_map_of_mem ho'
    obtain ⟨d, hd, heq⟩ := hm.exists_entry_of_said h hmode hname ht' hsaid
      (by simpa [Page.tell] using hl)
    obtain ⟨r, hr, hc, hn, hg⟩ := IsMovable.exists_record_of_entry hd
    obtain ⟨occ, ho, hgiven⟩ := h.exists_given hr hc
    obtain ⟨b, -, heq'⟩ := Option.map_eq_some_iff.mp hgiven
    injection heq' with hon hog
    have hdn : occ'.name = d.name := congrArg (fun y : Told => y.1.name) heq
    have hdg : occ'.group = d.group := congrArg (fun y : Told => y.1.group) heq
    exact ⟨occ, ho, Prod.ext (hon.trans (hn.trans hdn.symm)) (hog.trans (hg.trans hdg.symm))⟩

include h'

/-- A reference of the new page is one of the old page. -/
theorem exists_record_alike (hr' : r' ∈ m'.records) (hx' : r'.ref? = some x) :
    ∃ r ∈ m.records, r.ref? = some x := by
  obtain ⟨occ', ho', hx⟩ := List.mem_filterMap.mp (h'.mem_refs.mpr ⟨r', hr', hx'⟩)
  obtain ⟨occ, ho, heq⟩ := hm.exists_alike h hmode hname ht' ho'
  have href : occ.ref? = occ'.ref? := congrArg UseKey.ref? heq
  exact h.mem_refs.mp (List.mem_filterMap.mpr ⟨occ, ho, href.trans hx⟩)

/-- A tag with a name reads as it is to read when bodies move again. -/
theorem cut_again_of_ref? (hr' : r' ∈ m'.records) (hx' : r'.ref? = some x) {occ' : Occurrence}
    (hi' : (m'.tagsOf r')[i]? = some occ') (hw' : movedText? o r' i = some w) :
    t'.cut occ'.span = w := by
  obtain ⟨r, hr, hx⟩ := hm.exists_record_alike h hmode hname ht' h' hr' hx'
  -- the tag stands where the one with this number has stood
  have htexts := congrArg (fun l => l[i]?)
    (hm.map_cut_tagsOf h hmode hname ht' h' hr hr' hx hx')
  simp only [List.getElem?_map, hi', Option.map_some] at htexts
  obtain ⟨occ, hstays, htext⟩ := Option.map_eq_some_iff.mp htexts.symm
  have hi := h.toAccounts.getElem?_tagsOf hr hstays
  have hmoved := hm.movedText?_congr hr hx hx'
    (hm.content?_edited h hmode hname ht' h' hr hr' hx hx')
    (hm.location_edited h hmode hname ht' h' hr hr' hx hx') i
  rw [hw'] at hmoved
  obtain ⟨tag, htag, rfl, hleaves⟩ :=
    h.leavesTag_moving hmode hr (h.unmerged r hr) hi hmoved.symm
  have hleft : m.textAt o mode t tag.occurrence.span = w :=
    (hm.writesMarks h.toAccounts hmode hname).leftAt_of_leaves htag hleaves
  exact htext.symm.trans hleft

/-- So does a tag without a name: its record holds it alone. -/
theorem cut_again_of_nameless (hr' : r' ∈ m'.records) (hnone : r'.name = none) {occ' : Occurrence}
    (ho' : occ' ∈ m'.tagsOf r') (hw' : movedText? o r' i = some w) :
    t'.cut occ'.span = w := by
  rw [h'.tagsOf_eq hr', List.mem_filter] at ho'
  obtain ⟨huse, hchained⟩ := ho'
  obtain ⟨hsurvey, hlisted⟩ := h'.mem_survey_of_use hr' huse
  obtain ⟨hn', hg'⟩ := h'.of_mem hr' (.inl huse)
  obtain ⟨b, hb, rfl⟩ : ∃ b, r'.content? = some b ∧
      fullTag none r'.group b o.normalizeBodies = w := by
    rw [movedText?, Options.movedUse?, hnone] at hw'
    cases hb : r'.content? with
    | none => rw [hb] at hw'; cases hw'
    | some b => rw [hb] at hw'; exact ⟨b, rfl, Option.some.inj hw'⟩
  have hvisible : occ'.visibleBody? = some b := by
    obtain ⟨occ, ho, hbody, hblank⟩ := Record.exists_of_content? hb
    obtain ⟨q, -, -, hall⟩ := h'.nameless r' hr' hnone
    have hsame : ∀ p ∈ r'.uses ++ r'.listed, p = q := fun p hp => by
      rwa [hall, List.mem_singleton] at hp
    have hmem : occ ∈ r'.uses ++ r'.listed :=
      List.mem_append.mpr (ho.imp_left fun ho => (Record.mem_definitions_iff.mp ho).1)
    rw [hsame occ' (List.mem_append_left _ huse), ← hsame occ hmem]
    exact Occurrence.visibleBody?_eq_some.mpr ⟨hbody, hblank⟩
  have hsaid : (Page.ofText t').tell occ' ∈ saidIn names t' := by
    rw [saidIn_eq]
    exact List.mem_map_of_mem hsurvey
  rcases hm.mem_saidIn_edited h hmode hname ht' hsaid with
    ⟨tag, -, hname', hgroup, -, htext⟩ | ⟨-, hin⟩ | ⟨d, -, heq⟩
  · refine (htext (hname'.symm.trans (hn'.trans hnone)) b ?_).trans ?_
    · simpa [Page.tell] using hvisible
    · rw [← hgroup, ← hg']
      rfl
  · rw [Page.tell, Occurrence.isChained_told] at hin
    rw [hin] at hchained
    cases hchained
  · have hno : ((Page.ofText t').tell occ').1.isListed = false := by
      simpa [Page.tell] using hlisted
    rw [heq] at hno
    cases hno

/-- **No tag is written anew when bodies move again.** -/
theorem useEdits_again (hr' : r' ∈ m'.records) : m'.useEdits o mode r' = [] := by
  refine List.eq_nil_iff_forall_not_mem.mpr fun e he => ?_
  obtain ⟨-, i, occ', w, hi', hw', he⟩ := (mem_useEdits_moving hmode).mp he
  obtain ⟨hcut, -⟩ := Page.mem_change.mp he
  rw [h'.page_eq] at hcut
  cases hx' : r'.ref? with
  | some x => exact hcut (hm.cut_again_of_ref? h hmode hname ht' h' hr' hx' hi' hw')
  | none =>
    have hnone : r'.name = none := by simpa [Record.ref?] using hx'
    exact hcut (hm.cut_again_of_nameless h hmode hname ht' h' hr' hnone
      (List.mem_of_getElem? hi') hw')

/-! ## 2. Chains -/

omit ht' h' in
/-- The sign of a chain on the new page is that of a tag that has become one, or of a chain that
has been left as it is. -/
theorem sign_chain_edited {c' : Template} {σ : Sign} (hσ : σ ∈ signs names t')
    (ht' : Edit.applyAll t (m.plan o mode).1.edits = t') (hc' : σ.mark = .chain c') :
    (o.useChains = some true ∧ ∀ n ∈ citedNames c'.paramText, fitsChain n = true) ∨
      ∃ c, .chain c ∈ (Page.ofText t).tokens names ∧ σ = (Page.ofText t).sign (.chain c) := by
  rw [← ht', hm.signs_edited h hmode hname, List.mem_append, List.mem_flatMap,
    List.mem_flatMap] at hσ
  rcases hσ with ⟨k, hk, hσ⟩ | ⟨share, hs, hσ⟩
  · cases k with
    | tag tag =>
      obtain ⟨σ', hsigns, -, huse⟩ := hm.signs_left_tag h hmode hname hk
      rw [Token.span_tag, hsigns, List.mem_singleton] at hσ
      obtain ⟨hchained, hfits⟩ := huse.fits c' (hσ ▸ hc')
      exact .inl ⟨useChains_of_chainsAt hchained, hfits⟩
    | chain c =>
      rw [hm.signs_left_other h hmode hname hk (by simp) (by simp), List.mem_singleton] at hσ
      exact .inr ⟨c, hk, hσ⟩
    | locator c =>
      rw [hm.signs_left_other h hmode hname hk (by simp) (by simp), List.mem_singleton] at hσ
      rw [hσ] at hc'
      cases hc'
    | list l =>
      obtain ⟨share, hs, rfl⟩ := exists_listShare m.listEntries [] (h.mem_lists.mpr hk)
      obtain ⟨σ', hsigns, name, segments, -, hlist⟩ := hm.signs_left_list h hmode hname hs
      rw [Token.span_list, hsigns, List.mem_singleton] at hσ
      rw [hσ, hlist] at hc'
      cases hc'
  · obtain ⟨σ', hsigns, name, segments, -, hlist⟩ := hm.signs_newList hname hs
    rw [hsigns, List.mem_singleton] at hσ
    rw [hσ, hlist] at hc'
    cases hc'

/-- **No chain is written anew when bodies move again.** -/
theorem chainEdits_again {c' : Chain} (hc' : c' ∈ m'.chains) : (m'.chainEdits o c').1 = [] :=
  h.chainEdits_again h' hm.chains hc' (hm.sign_chain_edited h hmode hname
    (List.mem_map_of_mem (h'.mem_chains hc').1) ht' rfl)

end IsSteady
end Model
end CiteMarkup
