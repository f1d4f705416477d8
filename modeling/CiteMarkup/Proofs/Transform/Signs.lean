import CiteMarkup.Proofs.Reference.Told
import CiteMarkup.Proofs.Tag.Tidied
import CiteMarkup.Proofs.Transform.Filing
import CiteMarkup.Proofs.Transform.Rereading
/-!
# Marks after a move

When bodies move, each mark of the page is left as it is or is written anew, and lists are added
at the end of the page.  What is left at a tag is a tag of the same name and group
(`signs_left_tag`), chains and locators are left as they are (`signs_left_other`), and a list is
left with its share of the definitions (`signs_left_list`).  The marks of the new page are these,
in the order of the page, and those of the lists that are added (`signs_edited`).
-/

namespace CiteMarkup

/-- What the marks of a text tell. -/
def saidIn (names : List Text) (t : Text) : List Told := (signs names t).flatMap (·.said)

/-- The sign is that of an output list of a group with the definitions `ds` in it. -/
def Sign.Lists (s : Sign) (names : List Text) (normalize : Bool) (group : Option Text)
    (ds : List ListEntry) : Prop :=
  ∃ name segments, IsListOf names normalize group ds s.text name segments ∧
    s = ⟨.list (Template.ofWritten name segments), s.text, ds.map (·.told normalize)⟩

/-- The sign is that of a mark that tells of one use, of the name and the group.  If it has no name
and shows a body, it reads as that body is written. -/
structure Sign.IsUseOf (s : Sign) (normalize chained : Bool) (name group : Option Text) : Prop where
  said : ∃ o : Occurrence, s.said = [(o, s.text)] ∧ o.name = name ∧ o.group = group ∧
    o.isListed = false ∧ o.isChained = chained ∧
    (name = none → ∀ b, o.visibleBody? = some b → s.text = fullTag none group b normalize)
  unlisted : ∀ l, s.mark ≠ .list l
  fits : ∀ c, s.mark = .chain c → chained = true ∧ ∀ n ∈ citedNames c.paramText, fitsChain n = true

/-- The bodies of the page `t` can be moved, and moved again. -/
structure Model.IsSteady (m : Model) (names : List Text) (t : Text) (o : Options) : Prop
    extends m.IsMovable names t o where
  plain : ∀ occ ∈ ((Page.ofText t).survey names).occurrences, PlainlyKeyed occ.name occ.group
  /-- A body that has been normalized is left as it is when it is normalized again. -/
  settled : o.normalizeBodies = true → ∀ r ∈ m.records, ∀ c ∈ r.content?,
    normalized (normalized c) = normalized c
  /-- What is to be defined in a list has a name. -/
  named : ∀ d ∈ m.listEntries, d.name.isSome
  /-- The lists define references of their groups. -/
  own : ∀ l ∈ m.lists, ∀ occ ∈ (Page.ofText t).listedIn l, occ.group = l.group?

namespace Model

/-- What the plan leaves of a stretch of the page `t`. -/
def textAt (m : Model) (o : Options) (mode : Mode) (t : Text) (s : Span) : Text :=
  settledAt t (m.plan o mode).1.edits s

/-- The tag of a use becomes a chain. -/
def chainsAt (m : Model) (o : Options) (occ : Occurrence) : Bool :=
  m.records.any fun r => (List.range (m.tagsOf r).length).any fun i =>
    (m.tagsOf r)[i]? = some occ && becomesChain o r i

theorem fits_of_citesByChain {o : Options} {r : Record} {n : Text} (hn : r.name = some n)
    (h : r.citesByChain o = true) : fitsChain n = true := by
  rw [Record.citesByChain, hn, Bool.and_eq_true_iff, Bool.and_eq_true_iff] at h
  simpa using h.1.2

theorem Accounts.chainsAt_eq {m : Model} {o : Options} {p : Page} {names : List Text}
    {r : Record} {occ : Occurrence} {i : Nat} (h : m.Accounts p names) (hr : r ∈ m.records)
    (hi : (m.tagsOf r)[i]? = some occ) : m.chainsAt o occ = becomesChain o r i := by
  rw [Bool.eq_iff_iff, chainsAt, List.any_eq_true]
  constructor
  · rintro ⟨r', hr', hj⟩
    obtain ⟨j, -, hj⟩ := List.any_eq_true.mp hj
    obtain ⟨hj, hchain⟩ := Bool.and_eq_true_iff.mp hj
    have hj := of_decide_eq_true hj
    obtain ⟨rfl, -⟩ := h.unique_tag hr' hr (List.mem_of_getElem? hj) (List.mem_of_getElem? hi) rfl
    rw [h.eq_of_getElem?_tagsOf hi hj]
    exact hchain
  · intro hchain
    obtain ⟨hlt, -⟩ := List.getElem?_eq_some_iff.mp hi
    refine ⟨r, hr, List.any_eq_true.mpr ⟨i, List.mem_range.mpr hlt, ?_⟩⟩
    rw [hi, hchain]
    simp

theorem useChains_of_chainsAt {m : Model} {o : Options} {occ : Occurrence}
    (h : m.chainsAt o occ = true) : o.useChains = some true := by
  obtain ⟨r, -, h⟩ := List.any_eq_true.mp h
  obtain ⟨i, -, h⟩ := List.any_eq_true.mp h
  have hchain := citesByChain_of_becomesChain (Bool.and_eq_true_iff.mp h).2
  rw [Record.citesByChain, Bool.and_eq_true_iff, Bool.and_eq_true_iff] at hchain
  exact eq_of_beq hchain.1.1

/-- Among the tags that stay tags each has its number still: it is the first, or all of them
stay. -/
theorem Accounts.getElem?_tagsOf {m : Model} {o : Options} {p : Page} {names : List Text}
    {r : Record} {occ : Occurrence} {i : Nat} (h : m.Accounts p names) (hr : r ∈ m.records)
    (hi : ((m.tagsOf r).filter fun occ => !m.chainsAt o occ)[i]? = some occ) :
    (m.tagsOf r)[i]? = some occ := by
  have hstays : ∀ {q : Occurrence} {j : Nat}, (m.tagsOf r)[j]? = some q →
      m.chainsAt o q = becomesChain o r j := fun hj => h.chainsAt_eq hr hj
  cases hchain : r.citesByChain o with
  | false =>
    rw [List.filter_eq_self.mpr fun q hq => ?_] at hi
    · exact hi
    · obtain ⟨j, hj⟩ := List.mem_iff_getElem?.mp hq
      rw [hstays hj, becomesChain, hchain]
      rfl
  | true =>
    cases htags : m.tagsOf r with
    | nil =>
      rw [htags] at hi
      cases hi
    | cons first rest =>
      have hrest : rest.filter (fun q => !m.chainsAt o q) = [] := by
        refine List.filter_eq_nil_iff.mpr fun q hq => ?_
        obtain ⟨j, hj⟩ := List.mem_iff_getElem?.mp hq
        rw [hstays (j := j + 1) (by rw [htags]; exact hj), becomesChain, hchain]
        simp
      rw [htags, List.filter_cons, hrest] at hi
      split at hi
      · cases i with
        | zero => exact hi
        | succ i => cases hi
      · cases hi

namespace IsSteady

variable {m : Model} {names : List Text} {t w : Text} {o : Options}
variable {r : Record} {k l : Token} {i : Nat} {mode : Mode} {e : Edit} {tag : RefTag}
variable (hm : m.IsSteady names t o) (h : m.IsFiled mode (Page.ofText t) names)
variable (hmode : mode ≠ .keep) (hname : isNameOf names (canonicalName "reflist".toList) = true)

/-! ## 1. The edits at a mark -/

section Left

include hm h hmode

/-- An edit for the stretch of a mark belongs to the mark. -/
theorem seats_of_span (he : e ∈ (m.plan o mode).1.edits)
    (hk : k ∈ (Page.ofText t).tokens names) (hspan : e.span = k.span) :
    m.Seats o mode e k := by
  have hlt := (Page.span_of_mem_tokens hk).1
  have same : ∀ {l : Token}, l ∈ (Page.ofText t).marks names → e.span = l.span → k = l := by
    intro l hl hspan'
    exact Page.eq_of_start_eq hk (Page.mem_marks.mp hl).1
      (congrArg Span.start (hspan.symm.trans hspan'))
  rcases h.exists_seat he with hend | ⟨l, hl, hseat⟩
  · rw [← hspan, hend] at hlt
    exact absurd hlt (Nat.lt_irrefl _)
  · cases l with
    | tag tag =>
      obtain rfl := same hl hseat.1
      exact hseat
    | chain c =>
      obtain ⟨d, hd, -, hed⟩ := hseat
      have hnone : (m.chainEdits o d).1 = [] := hm.chains d hd
      rw [hnone] at hed
      cases hed
    | locator c => exact hseat.elim
    | list c =>
      rcases hseat with hseat | ⟨hkeep, -⟩
      · obtain rfl := same hl hseat.2.1
        exact .inl hseat
      · exact absurd hkeep hmode

end Left

/-! ## 2. The signs of what is left -/

section Signs

include hm

/-- A body that has been cleaned is left as it is when it is cleaned again. -/
theorem cleaned_cleaned (hr : r ∈ m.records) {c : Text} (hc : r.content? = some c) :
    cleaned o.normalizeBodies (cleaned o.normalizeBodies c) = cleaned o.normalizeBodies c := by
  cases hnormal : o.normalizeBodies with
  | false => exact tidy_tidy c
  | true => exact hm.settled hnormal r hr c hc

/-- What is written at a tag in a move is a use of its record. -/
theorem signs_movedText (hr : r ∈ m.records) (hw : movedText? o r i = some w) :
    ∃ σ, signs names w = [σ] ∧ σ.text = w ∧
      σ.IsUseOf o.normalizeBodies (becomesChain o r i) r.name r.group := by
  obtain ⟨hname, hgroup⟩ := hm.attributes r hr
  rcases movedText?_cases (hm.name_ne hr) hw with
    ⟨c, hc, hchain, rfl⟩ | ⟨n, hn, hchain, rfl⟩ | ⟨hsome, hchain, rfl⟩
  · obtain ⟨tag, hsigns⟩ := signs_tag hname hgroup (hm.bodies r hr c hc)
    refine ⟨_, hsigns, rfl, ⟨_, rfl, rfl, rfl, rfl, hchain.symm, fun hnone b hb => ?_⟩,
      fun _ => Token.noConfusion, fun _ => Token.noConfusion⟩
    obtain ⟨b', hb', hvisible⟩ := Option.bind_eq_some_iff.mp hb
    obtain rfl : cleaned o.normalizeBodies c = b' := Option.some.inj hb'
    obtain rfl : cleaned o.normalizeBodies c = b := by
      split at hvisible
      · cases hvisible
      · exact Option.some.inj hvisible
    rw [fullTag, hm.cleaned_cleaned hr hc, hnone]
  · obtain ⟨-, c, -, hsigns, hcited⟩ := hm.signs_chain hr hn (citesByChain_of_becomesChain hchain)
    refine ⟨_, hsigns, rfl, ⟨_, rfl, hn.symm, rfl, rfl, hchain.symm, fun hnone => ?_⟩,
      fun _ => Token.noConfusion, fun c' hc' => ⟨hchain, fun n' hn' => ?_⟩⟩
    · rw [hn] at hnone
      cases hnone
    · obtain rfl := Token.chain.inj hc'
      rw [hcited, List.mem_singleton] at hn'
      rw [hn']
      exact fits_of_citesByChain hn (citesByChain_of_becomesChain hchain)
  · obtain ⟨tag, hsigns⟩ := @signs_citation names r.name r.group hname hgroup hsome
    exact ⟨_, hsigns, rfl, ⟨_, rfl, rfl, rfl, rfl, hchain.symm, fun _ b hb => by cases hb⟩,
      fun _ => Token.noConfusion, fun _ => Token.noConfusion⟩

omit hm in
theorem movedText?_eq_none {o : Options} :
    movedText? o r i = none ↔ r.name = none ∧ r.content? = none := by
  rw [movedText?, Options.movedUse?]
  cases r.name <;> cases r.content? <;> simp
  split <;> simp

omit hm in
/-- A tag of a record without a body shows none. -/
theorem visibleBody?_of_use (hbody : r.content? = none) (ho : tag.occurrence ∈ r.uses) :
    tag.occurrence.visibleBody? = none := by
  cases hc : tag.content with
  | none => simp [Occurrence.visibleBody?, Occurrence.body?, RefTag.occurrence, hc]
  | body c n =>
    have hall := (visibleBody?_of_content? hbody).2
    rw [List.any_eq_false] at hall
    have hfull : tag.occurrence.isFull = true := by
      simp [Occurrence.isFull, RefTag.occurrence, hc]
    simpa using hall _ (Record.mem_definitions_iff.mpr ⟨ho, hfull⟩)

include h hmode hname

/-- **What is left at a tag is a use of its name and group.** -/
theorem signs_left_tag (htag : .tag tag ∈ (Page.ofText t).tokens names) :
    ∃ σ, signs names (m.textAt o mode t tag.span) = [σ] ∧ σ.text = m.textAt o mode t tag.span ∧
      σ.IsUseOf o.normalizeBodies (m.chainsAt o tag.occurrence) tag.name? tag.group? := by
  obtain ⟨r, hr, ho, i, hi⟩ := IsMovable.exists_tagsOf h.toAccounts h.unmerged htag
  obtain ⟨hn, hg⟩ := h.of_mem hr (.inl ho)
  have hn : tag.name? = r.name := hn
  have hg : tag.group? = r.group := hg
  rw [h.toAccounts.chainsAt_eq hr hi]
  cases hw : movedText? o r i with
  | some w =>
    have hleaves := IsMovable.leaves_of_leavesTag htag
      (h.leavesTag_moving hmode hr (h.unmerged r hr) hi hw)
    have hleft : m.textAt o mode t tag.span = w :=
      (hm.writesMarks h.toAccounts hmode hname).leftAt_of_leaves htag hleaves
    rw [hleft, hn, hg]
    exact hm.signs_movedText hr hw
  | none =>
    obtain ⟨hnone, hbody⟩ := movedText?_eq_none.mp hw
    have hleft : m.textAt o mode t tag.span = t.cut tag.span := by
      refine (hm.writesMarks h.toAccounts hmode hname).leftAt_of_unedited htag
        fun e he hspan => ?_
      have he := Edit.mem_of_mem_settle he
      obtain ⟨-, r', hr', he'⟩ := hm.seats_of_span h hmode he htag hspan
      obtain ⟨-, j, occ, w, hj, hw', he''⟩ := (mem_useEdits_moving hmode).mp he'
      have hstart : occ.span.start = tag.occurrence.span.start := by
        rw [← Page.span_of_mem_change he'', hspan]
        rfl
      obtain ⟨rfl, -⟩ := h.unique_tag hr' hr (List.mem_of_getElem? hj)
        (List.mem_of_getElem? hi) hstart
      rw [movedText?_eq_none.mpr ⟨hnone, hbody⟩] at hw'
      cases hw'
    have hvisible := visibleBody?_of_use hbody ho
    have hchain : becomesChain o r i = false := by
      rw [becomesChain, citesByChain_of_nameless hnone, Bool.false_and]
    rw [hleft, hchain]
    have hstanding := ((hm.writesMarks h.toAccounts hmode hname).signs_standing htag).2
    refine ⟨_, hstanding, rfl, ⟨_, rfl, rfl, rfl, ?_, ?_, fun _ b hb => ?_⟩,
      fun _ => Token.noConfusion, fun _ => Token.noConfusion⟩
    · rw [Occurrence.isListed_told, RefTag.isListed_occurrence]
    · rw [Occurrence.isChained_told, RefTag.isChained_occurrence]
    · rw [Occurrence.visibleBody?_told, hvisible] at hb
      cases hb

/-- **Chains and locators are left as they are.** -/
theorem signs_left_other (hk : k ∈ (Page.ofText t).tokens names)
    (htag : ∀ tag, k ≠ .tag tag) (hlist : ∀ l, k ≠ .list l) :
    signs names (m.textAt o mode t k.span) = [(Page.ofText t).sign k] := by
  have hleft : m.textAt o mode t k.span = t.cut k.span := by
    refine (hm.writesMarks h.toAccounts hmode hname).leftAt_of_unedited hk
      fun e he hspan => ?_
    have hseat := hm.seats_of_span h hmode (Edit.mem_of_mem_settle he) hk hspan
    cases k with
    | tag tag => exact htag tag rfl
    | list l => exact hlist l rfl
    | locator c => exact hseat
    | chain c =>
      obtain ⟨d, hd, -, hed⟩ := hseat
      have hnone : (m.chainEdits o d).1 = [] := hm.chains d hd
      rw [hnone] at hed
      cases hed
  rw [hleft]
  exact ((hm.writesMarks h.toAccounts hmode hname).signs_standing hk).2

/-- **A list is left with its share of the definitions.** -/
theorem signs_left_list {share : Template × List ListEntry}
    (hs : share ∈ listShares m.listEntries [] m.lists) :
    ∃ σ, signs names (m.textAt o mode t share.1.span) = [σ] ∧
      σ.Lists names o.normalizeBodies share.1.group? (o.listStyle.arrange share.2) := by
  obtain ⟨hlist, hown⟩ := mem_of_mem_listShares hs
  obtain ⟨name, segments, h'⟩ := hm.isListOf_share h.toAccounts hs
  have hsigns := h'.signs_eq
    (fun d hd => (hm.given_entry (hown d (mem_arrange.mp hd)).1).1)
    fun d hd => (hown d (mem_arrange.mp hd)).2
  have hleft : m.textAt o mode t share.1.span =
      share.1.updated t o.listStyle share.2 :=
    (hm.writesMarks h.toAccounts hmode hname).leftAt_of_leaves (h.mem_lists.mp hlist)
      (h.leaves_share hmode hs)
  rw [hleft]
  exact ⟨_, hsigns, name, segments, h', rfl⟩

omit h hmode in
/-- A list that is added is read as one with its share of the definitions. -/
theorem signs_newList {share : Option Text × List ListEntry}
    (hs : share ∈ newShares m.listEntries (m.lists.map (·.group?))) :
    ∃ σ, signs names (newList share.1 o.listStyle share.2) = [σ] ∧
      σ.Lists names o.normalizeBodies share.1 (o.listStyle.arrange share.2) := by
  obtain ⟨-, -, hown⟩ := mem_of_mem_newShares hs
  obtain ⟨w, segments, hlisted, h'⟩ := hm.isListOf_newShare hname hs
  have hsigns := h'.signs_eq
    (fun d hd => (hm.given_entry (hown d (mem_arrange.mp hd)).1).1)
    fun d hd => (hown d (mem_arrange.mp hd)).2
  have hline : signs names ['\n'] = [] := rfl
  rw [hlisted, signs_append (selfContained_lineEnd names), hline, List.nil_append]
  exact ⟨_, hsigns, _, segments, h', rfl⟩

/-! ## 3. The signs of the new page -/

omit hname in
/-- An edit for the end of the page adds lists. -/
theorem eq_added_of_span (he : e ∈ (m.plan o mode).1.edits)
    (hspan : e.span = Span.empty t.length) : m.addedLists o ≠ [] ∧
      e = ⟨Span.empty t.length, (m.addedLists o).flatten⟩ := by
  -- a mark is not empty
  have hmark : ∀ {k : Token}, k ∈ (Page.ofText t).tokens names → e.span ≠ k.span := by
    intro k hk heq
    have hlt := (Page.span_of_mem_tokens hk).1
    rw [← heq, hspan] at hlt
    exact absurd hlt (Nat.lt_irrefl _)
  rw [plan_edits, List.mem_append, List.mem_flatMap] at he
  rcases he with ⟨c, hc, he⟩ | he
  · have hnone : (m.chainEdits o c).1 = [] := hm.chains c hc
    rw [hnone] at he
    cases he
  · rcases mem_markEdits.mp he with ⟨r, hr, he⟩ | ⟨hkeep, -⟩ | ⟨-, he | ⟨hadded, heq⟩⟩
    · obtain ⟨r', hr', occ, ho, hc, hspan'⟩ := exists_use hr he
      obtain ⟨tag, htag, rfl⟩ := h.exists_tag hr' ho hc
      exact absurd hspan' (hmark htag)
    · exact absurd hkeep hmode
    · obtain ⟨l, hl, hspan'⟩ := mem_listEdits he
      exact absurd hspan' (hmark (h.mem_lists.mp hl))
    · rw [h.page_eq] at heq
      exact ⟨hadded, heq⟩

omit hname in
/-- At the end of the page the lists are added that it lacks. -/
theorem addedAtEnd_edited :
    addedAtEnd t (Edit.settle (m.plan o mode).1.edits) =
      if m.addedLists o = [] then []
        else [(m.addedLists o).flatten] := by
  by_cases hnil : m.addedLists o = []
  · rw [if_pos hnil, addedAtEnd, List.map_eq_nil_iff, List.filter_eq_nil_iff]
    intro e he hspan
    exact (hm.eq_added_of_span h hmode (Edit.mem_of_mem_settle he)
      (of_decide_eq_true hspan)).1 hnil
  · have hone : (Edit.settle (m.plan o mode).1.edits).filter
        (fun e => e.span = Span.empty t.length) =
          [⟨Span.empty t.length, (m.addedLists o).flatten⟩] := by
      refine eq_singleton_of_nodup ?_ (List.mem_filter.mpr
        ⟨h.mem_settle_added hmode hnil, decide_eq_true rfl⟩) fun e he => ?_
      · refine List.Nodup.filter _ ((Edit.pairwise_settle_before _).imp fun hab heq => ?_)
        exact hab.1 (congrArg Edit.span heq)
      · obtain ⟨he, hspan⟩ := List.mem_filter.mp he
        exact (hm.eq_added_of_span h hmode (Edit.mem_of_mem_settle he)
          (of_decide_eq_true hspan)).2
    rw [if_neg hnil, addedAtEnd, hone]
    rfl

/-- What is added at the end has the signs of the lists. -/
theorem signs_addedAtEnd :
    (addedAtEnd t (Edit.settle (m.plan o mode).1.edits)).flatMap (signs names) =
      (newShares m.listEntries (m.lists.map (·.group?))).flatMap fun share =>
        signs names (newList share.1 o.listStyle share.2) := by
  have hlists : m.addedLists o =
      (newShares m.listEntries (m.lists.map (·.group?))).map fun share =>
        newList share.1 o.listStyle share.2 := newLists_eq _ _ _
  have hself : ∀ w ∈ m.addedLists o, SelfContained names w := by
    intro w hw
    rw [hlists] at hw
    obtain ⟨share, hs, rfl⟩ := List.mem_map.mp hw
    exact (hm.reading_added hname hs).1
  have hall : (m.addedLists o).flatMap (signs names) =
      (newShares m.listEntries (m.lists.map (·.group?))).flatMap fun share =>
        signs names (newList share.1 o.listStyle share.2) := by
    rw [hlists, List.flatMap_map]
  rw [hm.addedAtEnd_edited h hmode, ← hall]
  split
  · rename_i hnil
    rw [hnil]
  · rw [List.flatMap_singleton, (signs_flatten hself).2]

/-- **The signs of the page after a move** are those of what is left at each mark, and those of
the lists that are added. -/
theorem signs_edited :
    signs names (Edit.applyAll t (m.plan o mode).1.edits) =
      ((Page.ofText t).tokens names).flatMap
          (fun k => signs names (m.textAt o mode t k.span)) ++
        (newShares m.listEntries (m.lists.map (·.group?))).flatMap fun share =>
          signs names (newList share.1 o.listStyle share.2) := by
  rw [(hm.writesMarks h.toAccounts hmode hname).signs_edited,
    hm.signs_addedAtEnd h hmode hname]
  rfl

/-- **Citations that stand apart do so after a move.** -/
theorem scattered_edited (hscattered : (Page.ofText t).Scattered names) :
    (Page.ofText (Edit.applyAll t (m.plan o mode).1.edits)).Scattered names := by
  have hlists : ∀ {σ : Sign} {group : Option Text} {ds : List ListEntry},
      σ.Lists names o.normalizeBodies group ds → σ.mark.joins = false := by
    rintro σ group ds ⟨name, segments, -, hσ⟩
    rw [hσ]
    rfl
  refine (hm.writesMarks h.toAccounts hmode hname).scattered_edited (fun k hk => ?_)
    (fun σ hσ => ?_) hscattered
  · cases k with
    | tag tag =>
      obtain ⟨σ, hsigns, -⟩ := hm.signs_left_tag h hmode hname hk
      exact ⟨σ, hsigns, fun _ => rfl⟩
    | chain c => exact ⟨_, hm.signs_left_other h hmode hname hk (by simp) (by simp), fun _ => rfl⟩
    | locator c =>
      exact ⟨_, hm.signs_left_other h hmode hname hk (by simp) (by simp), fun _ => rfl⟩
    | list l =>
      obtain ⟨share, hs, rfl⟩ := exists_listShare m.listEntries [] (h.mem_lists.mpr hk)
      obtain ⟨σ, hsigns, hσ⟩ := hm.signs_left_list h hmode hname hs
      refine ⟨σ, hsigns, fun hjoins => ?_⟩
      rw [hlists hσ] at hjoins
      cases hjoins
  · rw [hm.signs_addedAtEnd h hmode hname, List.mem_flatMap] at hσ
    obtain ⟨share, hs, hσ⟩ := hσ
    obtain ⟨σ', hsigns, hσ'⟩ := hm.signs_newList hname hs
    rw [hsigns, List.mem_singleton] at hσ
    rw [hσ]
    exact hlists hσ'

end Signs

end IsSteady
end Model
end CiteMarkup
