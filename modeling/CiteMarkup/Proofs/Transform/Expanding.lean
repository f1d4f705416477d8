import CiteMarkup.Proofs.Chain.Expanded
import CiteMarkup.Proofs.Transform.Located
import CiteMarkup.Proofs.Transform.Silence
/-!
# A page whose chains are taken apart

If nothing is asked for but that chains be taken apart, the edits of a page are those of its
chains (`edits_expanding`), and each of them cites what the chain has cited.  So the running text
cites what it has cited, and behind each tag that a name has become stand the pages and places of
the name (`citations_expanded`).

This needs chains that can be taken apart (`Model.IsExpandable`).  Others are taken apart all the
same: a name with a quotation mark is then read as another name (`citation_changed_by_quote`), and
of two names with one index the second loses its group (`group_lost_by_second_name`).
-/

namespace CiteMarkup

/-! ## 1. Pages whose chains can be taken apart -/

/-- Options that take chains apart and change nothing else. -/
def Options.expanding : Options := { useChains := some false }

/-- The page `t` has nothing to change but chains, and those can be taken apart. -/
structure Model.IsExpandable (m : Model) (names : List Text) (t : Text) : Prop where
  tags : ∀ r ∈ m.records, ∀ occ ∈ r.uses, occ.isChained = false → r.Agrees m.page occ
  definitions : ∀ r ∈ m.records, ∀ occ ∈ r.listed, r.Agrees m.page occ
  /-- A reference without a name is defined in a list only if nothing uses it. -/
  nameless : ∀ r ∈ m.records, r.name = none → r.listed = [] ∨ r.uses = []
  /-- A name in a chain is that of its reference. -/
  chained : ∀ r ∈ m.records, ∀ occ ∈ r.uses, occ.isChained = true → occ.name = r.name
  /-- Chains that get an edit can be taken apart. -/
  chains : ∀ c ∈ m.chains, (m.chainEdits .expanding c).1 ≠ [] → c.IsExpandable names t

namespace Model

variable {m : Model} {names : List Text} {t w : Text} {c : Chain} {e f : Edit}

/-- A chain gets no edit, or its expansion takes its place. -/
theorem chainEdits_expanding (m : Model) (c : Chain) :
    (m.chainEdits .expanding c).1 = [] ∨
      ∃ w, c.expand (m.targets c) = .ok (some w) ∧
        (m.chainEdits .expanding c).1 = [⟨c.template.span, w⟩] := by
  have hedits : (m.chainEdits .expanding c).1 =
      (c.edits (some false) (m.targets c)).1.flatMap fun e => m.page.change e.span e.text := rfl
  rw [hedits, Chain.edits]
  split
  · cases hexpand : c.expand (m.targets c) with
    | error why => exact .inl rfl
    | ok result =>
      cases result with
      | none => exact .inl rfl
      | some w =>
        rcases m.page.change_cases c.template.span w with hnone | hone
        · exact .inl (by rw [List.flatMap_singleton, hnone])
        · exact .inr ⟨w, rfl, by rw [List.flatMap_singleton, hone]⟩
  · -- a chain stays one only if it has no names
    rename_i hstays
    have hnames : c.names = [] := by
      simpa [Chain.isToExpand, mustExpand] using hstays
    exact .inl (by simp [Chain.renamingEdits, renamedNames, hnames])

/-- The edits of a chain do not depend on locations. -/
theorem chainEdits_place (m : Model) (mode : Mode) (o : Options) (c : Chain) :
    (m.place mode).1.chainEdits o c = m.chainEdits o c := by
  rw [place_eq_relocated, chainEdits_relocated]

namespace IsExpandable

variable (hm : m.IsExpandable names t)
include hm

/-- Locations do not matter. -/
theorem place (mode : Mode) : (m.place mode).1.IsExpandable names t := by
  refine ⟨forall_place (fun r hr _ => hm.tags r hr) mode,
    forall_place (fun r hr _ => hm.definitions r hr) mode,
    forall_place (fun r hr _ => hm.nameless r hr) mode,
    forall_place (fun r hr _ => hm.chained r hr) mode, fun c hc hne => ?_⟩
  rw [chainEdits_place] at hne
  exact hm.chains c hc hne

variable (h : m.Accounts (Page.ofText t) names) (hu : m.Unmerged)
include h hu

/-- Tags and definitions stay as they are. -/
theorem markEdits_expanding (hwritten : ∀ r ∈ m.records, r.writtenName = r.name) :
    m.markEdits .expanding .keep = [] := by
  refine List.eq_nil_iff_forall_not_mem.mpr fun e he => ?_
  rcases mem_markEdits.mp he with ⟨r, hr, he⟩ | ⟨-, r, hr, occ, ho, he⟩ | ⟨hkeep, -⟩
  · have huses : m.useEdits {} .keep r = [] :=
      (useEdits_eq_nil (hu r hr) (hwritten r hr)
        fun occ ho => (h.mem_survey_of_use hr ho).2).mpr (hm.tags r hr)
    have hsame : m.useEdits .expanding .keep r = m.useEdits {} .keep r := rfl
    rw [hsame, huses] at he
    cases he
  · have hnone : m.definitionEdits {} r occ = [] := by
      refine (definitionEdits_eq_nil (hu r hr) (h.mem_survey_of_listed hr ho).2).mpr
        ⟨fun hname => (hm.nameless r hr hname).resolve_left ?_, hm.definitions r hr occ ho⟩
      exact List.ne_nil_of_mem ho
    have hsame : m.definitionEdits .expanding r occ = m.definitionEdits {} r occ := rfl
    rw [hsame, hnone] at he
    cases he
  · exact absurd rfl hkeep

/-- **The edits are those of the chains.** -/
theorem edits_expanding (hwritten : ∀ r ∈ m.records, r.writtenName = r.name) :
    (m.plan .expanding .keep).1.edits =
      m.chains.flatMap fun c => (m.chainEdits .expanding c).1 := by
  rw [plan_edits, hm.markEdits_expanding h hu hwritten, List.append_nil]

/-- The targets of a chain have its names. -/
theorem map_name_targets (hc : c ∈ m.chains) :
    (m.targets c).map (·.name) = c.names.map fun e => some e.value :=
  h.map_name_targets hc hu fun r hr occ ho i hform =>
    hm.chained r hr occ ho (by rw [Occurrence.isChained, hform])

/-! ## 2. The edits of the chains -/

section Edits

variable (hchains : isNameOf names (canonicalName chainName) = false)
  (hlocators : isNameOf names (canonicalName locatorName) = false)
include hchains hlocators

/-- **A chain with an edit is replaced by what cites the same.** -/
theorem cites_edit (hc : c ∈ m.chains) (he : e ∈ (m.chainEdits .expanding c).1) :
    c.IsExpandable names t ∧ e.span = c.template.span ∧ CitesAll names e.text [] c.bound ∧
      usesIn names e.text = usesIn names (t.cut e.span) := by
  have hexpandable := hm.chains c hc (List.ne_nil_of_mem he)
  obtain ⟨hmark, hentries⟩ := h.mem_chains hc
  rcases chainEdits_expanding m c with hnone | ⟨w, hexpand, hone⟩
  · rw [hnone] at he
    cases he
  · rw [hone, List.mem_singleton] at he
    subst he
    obtain ⟨hcites, huses⟩ := hexpandable.cites_expansion hmark hentries hchains hlocators
      (hm.map_name_targets h hu hc) hexpand
    exact ⟨hexpandable, rfl, hcites, huses⟩

/-- Edits of chains can be carried out: the page can be cut around each, and what it writes
cites what has stood there. -/
theorem cuts_edit (he : e ∈ m.chains.flatMap fun c => (m.chainEdits .expanding c).1) :
    SelfContained names (t.take e.span.start) ∧ SelfContained names (t.take e.span.stop) ∧
      SelfContained names e.text ∧ usesIn names e.text = usesIn names (t.cut e.span) := by
  obtain ⟨c, hc, he⟩ := List.mem_flatMap.mp he
  obtain ⟨hexpandable, hspan, hcites, huses⟩ := hm.cites_edit h hu hchains hlocators hc he
  refine ⟨?_, ?_, hcites.self, huses⟩
  · rw [hspan]
    exact hexpandable.front
  · rw [hspan]
    exact hexpandable.back

/-- The edits of chains stand one behind the other, with one edit at most for each. -/
theorem apart_edits {c d : Chain} (hc : c ∈ m.chains) (hd : d ∈ m.chains)
    (he : e ∈ (m.chainEdits .expanding c).1) (hf : f ∈ (m.chainEdits .expanding d).1) :
    e = f ∨ e.span.Apart f.span := by
  obtain ⟨hce, hcspan, -⟩ := hm.cites_edit h hu hchains hlocators hc he
  obtain ⟨hde, hdspan, -⟩ := hm.cites_edit h hu hchains hlocators hd hf
  rcases eq_or_apart_of_cuts (h.mem_chains hc).1 (h.mem_chains hd).1 hce.front hde.front with
    hcd | hapart
  · left
    obtain rfl := h.chain_eq hc hd (.inr (Token.chain.inj hcd))
    rcases chainEdits_expanding m c with hnone | ⟨w, -, hone⟩
    · rw [hnone] at he
      cases he
    · rw [hone, List.mem_singleton] at he hf
      rw [he, hf]
  · right
    rw [hcspan, hdspan]
    exact hapart

theorem between_edits :
    Edit.Between 0 t.length
      (Edit.settle (m.chains.flatMap fun c => (m.chainEdits .expanding c).1)) := by
  refine Edit.between_settle (Nat.zero_le _) (fun e he f hf => ?_) fun e he => ?_
  · obtain ⟨c, hc, he⟩ := List.mem_flatMap.mp he
    obtain ⟨d, hd, hf⟩ := List.mem_flatMap.mp hf
    exact (hm.apart_edits h hu hchains hlocators hc hd he hf).imp_left (congrArg Edit.span)
  · obtain ⟨c, hc, he⟩ := List.mem_flatMap.mp he
    obtain ⟨-, hspan, -⟩ := hm.cites_edit h hu hchains hlocators hc he
    rw [hspan]
    exact ⟨Nat.zero_le _, (Page.span_of_mem_tokens (h.mem_chains hc).1).2⟩

/-! ## 3. The page with its chains taken apart -/

/-- **The page cites what it has cited.** -/
theorem usesIn_expanded :
    usesIn names (Edit.applyAll t (m.chains.flatMap fun c => (m.chainEdits .expanding c).1)) =
      usesIn names t := by
  have hbetween := hm.between_edits h hu hchains hlocators
  rw [Edit.applyAll_eq_spliced hbetween, usesIn_spliced hbetween .nil fun e he =>
    hm.cuts_edit h hu hchains hlocators (Edit.mem_of_mem_settle he)]
  rw [Text.slice_length, List.drop_zero]

/-- **A name that becomes a tag has it where its turn comes**, behind what the page cites in front
of the chain and what the names in front of it cite. -/
theorem holdsTag_expanded (hc : c ∈ m.chains) (hedit : (m.chainEdits .expanding c).1 ≠ [])
    {l r : List Holding} {x : Holding} (hx : c.bound = l ++ x :: r)
    (hconvertible : isUnconvertible x.2 = false) :
    HoldsTag names
      (Edit.applyAll t (m.chains.flatMap fun c => (m.chainEdits .expanding c).1))
      (usesIn names (t.take c.template.span.start) ++ l.map Holding.cited) x := by
  have hbetween := hm.between_edits h hu hchains hlocators
  obtain ⟨e, he⟩ := List.exists_mem_of_ne_nil _ hedit
  obtain ⟨hexpandable, hspan, hcites, -⟩ := hm.cites_edit h hu hchains hlocators hc he
  have hsettled : e ∈ Edit.settle (m.chains.flatMap fun c => (m.chainEdits .expanding c).1) := by
    refine Edit.mem_settle (List.mem_flatMap.mpr ⟨c, hc, he⟩) fun f hf hsame => ?_
    obtain ⟨d, hd, hf⟩ := List.mem_flatMap.mp hf
    refine (hm.apart_edits h hu hchains hlocators hd hc hf he).resolve_right fun hapart => ?_
    have hlt := (Page.span_of_mem_tokens (h.mem_chains hc).1).1
    have hlt : e.span.start < e.span.stop := hspan ▸ hlt
    rw [hsame, Span.Apart] at hapart
    omega
  rw [Edit.applyAll_eq_spliced hbetween]
  obtain ⟨es, fs, hsplit⟩ := List.append_of_mem hsettled
  rw [hsplit] at hbetween ⊢
  have hcuts : ∀ f ∈ es, SelfContained names (t.take f.span.start) ∧
      SelfContained names (t.take f.span.stop) ∧ SelfContained names f.text ∧
      usesIn names f.text = usesIn names (t.cut f.span) := fun f hf =>
    hm.cuts_edit h hu hchains hlocators
      (Edit.mem_of_mem_settle (hsplit ▸ List.mem_append_left _ hf))
  have hfront : SelfContained names (Edit.spliced t e.span.start 0 es) :=
    selfContained_spliced hbetween.around.1 .nil (hspan ▸ hexpandable.front) fun f hf =>
      ⟨(hcuts f hf).1, (hcuts f hf).2.1, (hcuts f hf).2.2.1⟩
  have huses : usesIn names (Edit.spliced t e.span.start 0 es) =
      usesIn names (t.take c.template.span.start) := by
    rw [usesIn_spliced hbetween.around.1 .nil hcuts, hspan]
    rfl
  rw [Edit.spliced_around hbetween, ← huses]
  exact ((hcites.tags l x r hx hconvertible).in_front hcites.self _).behind hfront

end Edits
end IsExpandable
end Model

/-! ## 4. Runs -/

/-- A run that only takes chains apart works on the references of the page as it is read. -/
theorem placed_expanding (title : Option Text) (t : Text) :
    (transform .expanding title t).placed = ((Model.ofText t defaultListNames).place .keep).1 := by
  have hmerged : (transform .expanding title t).merged = (transform {} title t).merged := rfl
  rw [placed_eq, hmerged, merged_default]
  rfl

/-- **A page whose chains are taken apart cites what it has cited**, name by name with their groups
and in the same order.  Every name of such a chain, unless it stays in a chain, has become a tag
in its place, and right behind the tag a locator has the pages and places of the name. -/
theorem citations_expanded (title : Option Text) (t : Text)
    (hm : (Model.ofText t defaultListNames).IsExpandable defaultListNames t) :
    let m := Model.ofText t defaultListNames
    let text := (transform .expanding title t).text
    (Model.ofText text defaultListNames).cited = m.cited ∧
      ∀ c ∈ m.chains, (m.chainEdits .expanding c).1 ≠ [] →
        ∀ l x r, c.bound = l ++ x :: r → isUnconvertible x.2 = false →
          HoldsTag defaultListNames text
            (usesIn defaultListNames (t.take c.template.span.start) ++ l.map Holding.cited) x := by
  intro m text
  have h := accounts_ofText t defaultListNames
  have hu := unmerged_ofText t defaultListNames
  have hchains : isNameOf defaultListNames (canonicalName chainName) = false := by decide
  have hlocators : isNameOf defaultListNames (canonicalName locatorName) = false := by decide
  have hedits : (transform .expanding title t).plan.edits =
      m.chains.flatMap fun c => (m.chainEdits .expanding c).1 := by
    have hplaced := (hm.place .keep).edits_expanding (h.place .keep)
      (Model.forall_place (fun r hr _ => hu r hr) .keep)
      (Model.forall_place (fun r hr _ => writtenName_ofText t defaultListNames r hr) .keep)
    rw [plan_eq, placed_expanding]
    refine hplaced.trans (List.flatMap_congr fun c _ => ?_)
    rw [Model.chainEdits_place]
  have htext : text =
      Edit.applyAll t (m.chains.flatMap fun c => (m.chainEdits .expanding c).1) := by
    rw [← hedits]
    exact text_eq (by decide)
  rw [htext, cited_ofText, cited_ofText]
  exact ⟨hm.usesIn_expanded h hu hchains hlocators, fun c hc hedit l x r hx hconvertible =>
    hm.holdsTag_expanded h hu hchains hlocators hc hedit hx hconvertible⟩

/-- A page with a chain of two names: the first can become a tag, the second has to stay. -/
def pageOfChain : Text :=
  "See ".toList ++ ("\x7b\x7br|a|g=n|p=4|b|q2=x\x7d\x7d".toList ++ ".".toList)

theorem isExpandable_pageOfChain :
    (Model.ofText pageOfChain defaultListNames).IsExpandable defaultListNames pageOfChain := by
  have hrecords : ∀ r ∈ (Model.ofText pageOfChain defaultListNames).records,
      r.listed = [] ∧ ∀ occ ∈ r.uses, occ.isChained = true ∧ occ.name = r.name := by
    decide +kernel
  have hplace : ∀ c ∈ (Model.ofText pageOfChain defaultListNames).chains,
      pageOfChain.take c.template.span.start = "See ".toList ∧
      pageOfChain.take c.template.span.stop = "See ".toList ++ writeTemplate chainName
        ["a".toList, "g=n".toList, "p=4".toList, "b".toList, "q2=x".toList] := by
    decide +kernel
  have halone : ∀ c ∈ (Model.ofText pageOfChain defaultListNames).chains,
      ∀ k ∈ (Page.ofText pageOfChain).tokens defaultListNames,
        c.template.span.contains k.span.start = true → k = .chain c.template := by
    decide +kernel
  have hindices : ∀ c ∈ (Model.ofText pageOfChain defaultListNames).chains,
      ((c.plainEntries.filter (·.isName)).map (·.index)).Nodup := by
    decide +kernel
  have hwritten : ∀ c ∈ (Model.ofText pageOfChain defaultListNames).chains,
      ∀ x ∈ c.bound, Holding.CanBeWritten c.template.chainName x := by
    decide +kernel
  have hsee : SelfContained defaultListNames "See ".toList :=
    .of_unbraced _ (by decide) (by decide) (by decide)
  obtain ⟨hchain, -⟩ : SelfContained defaultListNames (writeTemplate chainName
      ["a".toList, "g=n".toList, "p=4".toList, "b".toList, "q2=x".toList]) ∧ _ :=
    selfContained_written (by decide) (by decide) (by decide)
  constructor
  case tags =>
    intro r hr occ ho hnot
    rw [((hrecords r hr).2 occ ho).1] at hnot
    cases hnot
  case definitions =>
    intro r hr occ ho
    rw [(hrecords r hr).1] at ho
    cases ho
  case nameless => exact fun r hr _ => .inl (hrecords r hr).1
  case chained => exact fun r hr occ ho _ => ((hrecords r hr).2 occ ho).2
  case chains =>
    intro c hc _
    obtain ⟨hfront, hback⟩ := hplace c hc
    refine ⟨?_, ?_, halone c hc, hindices c hc, hwritten c hc⟩
    · rw [hfront]
      exact hsee
    · rw [hback]
      exact hsee.append hchain

/-- The first name becomes a tag with its group, the page stands behind it, and the second name is
counted anew. -/
theorem citations_expanded_pageOfChain :
    let m := Model.ofText pageOfChain defaultListNames
    let text := (transform .expanding none pageOfChain).text
    m.IsExpandable defaultListNames pageOfChain ∧
      text = "See <ref name=\"a\" group=\"n\" />".toList ++
        "\x7b\x7brp|p=4\x7d\x7d\x7b\x7br|b|q=x\x7d\x7d.".toList ∧
      (Model.ofText text defaultListNames).cited =
        [(some "a".toList, some "n".toList), (some "b".toList, none)] ∧
      ∃ c ∈ m.chains, ∃ x r, c.bound = x :: r ∧ x.1.value = "a".toList ∧
        HoldsTag defaultListNames text [] x := by
  intro m text
  obtain ⟨hcited, htags⟩ := citations_expanded none pageOfChain isExpandable_pageOfChain
  have hm : m.cited = [(some "a".toList, some "n".toList), (some "b".toList, none)] := by
    decide +kernel
  obtain ⟨c, hc, hedit, hfront, x, hx, hname, hconvertible⟩ : ∃ c ∈ m.chains,
      (m.chainEdits .expanding c).1 ≠ [] ∧
      usesIn defaultListNames (pageOfChain.take c.template.span.start) = [] ∧
      ∃ x ∈ c.bound.head?, x.1.value = "a".toList ∧ isUnconvertible x.2 = false := by
    decide +kernel
  obtain ⟨r, hbound⟩ := List.head?_eq_some_iff.mp hx
  have hholds := htags c hc hedit [] x r hbound hconvertible
  rw [hfront] at hholds
  exact ⟨isExpandable_pageOfChain, by decide +kernel, hcited.trans hm, c, hc, x, r, hbound, hname,
    hholds⟩

/-- A quotation mark in a name is written as an entity, which is not read back: the page cites
another name. -/
theorem citation_changed_by_quote :
    let t := "\x7b\x7br|a\"b\x7d\x7d".toList
    let text := (transform .expanding none t).text
    text = "<ref name=\"a&quot;b\" />".toList ∧
      (Model.ofText t defaultListNames).cited = [(some "a\"b".toList, none)] ∧
      (Model.ofText text defaultListNames).cited = [(some "a&quot;b".toList, none)] := by
  decide +kernel

/-- Two names with one index have one group in the chain, but the first alone takes it along. -/
theorem group_lost_by_second_name :
    let t := "\x7b\x7br|a|1=b|g=n\x7d\x7d".toList
    let text := (transform .expanding none t).text
    text = "<ref name=\"a\" group=\"n\" /><ref name=\"b\" />".toList ∧
      (Model.ofText t defaultListNames).cited =
        [(some "a".toList, some "n".toList), (some "b".toList, some "n".toList)] ∧
      (Model.ofText text defaultListNames).cited =
        [(some "a".toList, some "n".toList), (some "b".toList, none)] := by
  decide +kernel

end CiteMarkup
