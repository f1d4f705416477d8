import CiteMarkup.Proofs.Reference.Catalogue
import CiteMarkup.Proofs.Reference.Told
import CiteMarkup.Proofs.Transform.Moving
import CiteMarkup.Proofs.Transform.Rewriting
import CiteMarkup.Proofs.Transform.Silence
/-!
# Moved bodies, read again

When bodies move, each of them is written anew: at a tag, in an output list of the page, or in one
that is added.  What is written is read back if the page can be cut around its marks and every
part can stand where it is put (`Model.IsMovable`).  Then the new page gives the bodies of the
references of the old one and no others (`gives_of_mem_edited`), so the dictionary of the new
page has each of them, tidied, under the identity of its reference (`moved_bodies_read_back`).

A body with a bar cannot stand in a list by itself.  It is put there all the same, and no
reader finds it (`body_cut_at_bar`).
-/

namespace CiteMarkup

/-! ## 1. Pages on which bodies can be moved -/

/-- Options that move bodies and change nothing else; the definitions in lists may be sorted. -/
def Options.moving (s : Setting) (sort : Bool) : Options := { location := s, sortRefs := sort }

/-- What a record gives once its body has been written anew. -/
def Record.given? (o : Options) (r : Record) : Option GivenBody :=
  r.content?.map fun c => ⟨r.name, r.group, cleaned o.normalizeBodies c⟩

/-- One of the records gives the body. -/
def Model.Gives (m : Model) (o : Options) (x : GivenBody) : Prop :=
  ∃ r ∈ m.records, r.given? o = some x

/-- A citation of the reference is written as a chain. -/
def Record.citesByChain (o : Options) (r : Record) : Bool :=
  o.useChains == some true && r.name.any fitsChain && fitsChain (r.group.getD [])

theorem Record.citation_eq {o : Options} {r : Record} {n : Text} (hn : r.name = some n)
    (hne : n ≠ []) : citation (some n) r.group (o.useChains == some true) =
      if r.citesByChain o then singleChain n r.group else citation (some n) r.group false := by
  have hnonempty : Text.nonempty? n = some n := nonempty?_of_ne hne
  rw [citesByChain, hn, citation, citation, Option.bind_some, hnonempty]
  rfl

/-- The bodies of the page `t` can be moved and read again. -/
structure Model.IsMovable (m : Model) (names : List Text) (t : Text) (o : Options := {}) :
    Prop where
  /-- The page can be cut around its marks. -/
  page : SelfContained names t
  cuts : ∀ k ∈ (Page.ofText t).tokens names,
    SelfContained names (t.take k.span.start) ∧ SelfContained names (t.take k.span.stop)
  /-- Names and groups can stand between quotes, and bodies between tags. -/
  attributes : ∀ r ∈ m.records, (∀ v ∈ r.name, IsAttribute v) ∧ ∀ v ∈ r.group, IsAttribute v
  bodies : ∀ r ∈ m.records, ∀ c ∈ r.content?, IsBody names (cleaned o.normalizeBodies c)
  /-- What goes into a list can stand between its bars. -/
  definitions : ∀ d ∈ m.listEntries, IsSegment (fullTag d.name none d.body o.normalizeBodies).veil
  lists : ∀ l ∈ m.lists, ∃ name segments,
    t.cut l.span = templateText name (barred segments) ∧ IsListText names name segments
  added : ∀ d ∈ m.listEntries, d.group ∉ m.lists.map (·.group?) → ∀ g ∈ d.group, IsListGroup g
  /-- Chains stay as they are. -/
  chains : ∀ c ∈ m.chains, (m.chainEdits o c).1 = []
  /-- A citation that becomes a chain can stand there. -/
  chained : ∀ r ∈ m.records, r.citesByChain o = true →
    isNameOf names (canonicalName chainName) = false ∧
      (∀ v ∈ r.name, StandsInChain v) ∧ ∀ v ∈ r.group, StandsInChain v
  /-- No name reads like the number of a reference without one. -/
  numbers : ∀ r ∈ m.records, r.name.isSome → ∀ n, r.key ≠ namelessIdentity n

theorem isBlankOnly_of_content? {r : Record} {c : Text} (hc : r.content? = some c) :
    c.isBlankOnly = false := by
  obtain ⟨_, _, _, hvisible⟩ := Record.exists_of_content? hc
  exact hvisible

namespace Model

variable {o : Options} {r : Record} {w : Text} {i : Nat}

/-- The tag at position `i` becomes a chain: it does not hold the body. -/
def becomesChain (o : Options) (r : Record) (i : Nat) : Bool :=
  r.citesByChain o && !(r.content?.isSome && (r.location = .inline && i = 0))

theorem citesByChain_of_becomesChain (h : becomesChain o r i = true) :
    r.citesByChain o = true := (Bool.and_eq_true_iff.mp h).1

theorem citesByChain_of_nameless (hnone : r.name = none) : r.citesByChain o = false := by
  rw [Record.citesByChain, hnone]
  simp

/-- **A tag is left with the body, as a chain, or as a tag that cites.** -/
theorem movedText?_cases (hne : r.name ≠ some []) (hw : movedText? o r i = some w) :
    (∃ c, r.content? = some c ∧ becomesChain o r i = false ∧
      w = fullTag r.name r.group c o.normalizeBodies) ∨
    (∃ n, r.name = some n ∧ becomesChain o r i = true ∧ w = singleChain n r.group) ∨
    r.name.isSome ∧ becomesChain o r i = false ∧ w = citation r.name r.group false := by
  have hcites : ∀ n, r.name = some n →
      (r.content?.isSome && (r.location = .inline && i = 0)) = false →
      citation (some n) r.group (o.useChains == some true) = w →
      (∃ n, r.name = some n ∧ becomesChain o r i = true ∧ w = singleChain n r.group) ∨
        r.name.isSome ∧ becomesChain o r i = false ∧ w = citation r.name r.group false := by
    intro n hn hholds hw
    have hbecomes : becomesChain o r i = r.citesByChain o := by
      rw [becomesChain, hholds, Bool.not_false, Bool.and_true]
    rw [Record.citation_eq hn fun hnil => hne (hnil ▸ hn)] at hw
    rw [hbecomes, hn]
    cases hchain : r.citesByChain o with
    | true =>
      rw [hchain, if_pos rfl] at hw
      exact .inl ⟨n, rfl, rfl, hw.symm⟩
    | false =>
      rw [hchain, if_neg Bool.false_ne_true] at hw
      exact .inr ⟨rfl, rfl, hw.symm⟩
  rw [movedText?, Options.movedUse?] at hw
  split at hw
  · rename_i n c hn hc
    by_cases hholds : r.location = .inline && i = 0
    · rw [if_pos hholds] at hw
      refine .inl ⟨c, hc, ?_, hn ▸ (Option.some.inj hw).symm⟩
      rw [becomesChain, hholds, hc]
      simp
    · rw [if_neg hholds] at hw
      refine .inr (hcites n hn ?_ (Option.some.inj hw))
      rw [Bool.eq_false_iff.mpr hholds, Bool.and_false]
  · rename_i n hn hc
    exact .inr (hcites n hn (by rw [hc]; rfl) (Option.some.inj hw))
  · rename_i c hn hc
    refine .inl ⟨c, hc, ?_, hn ▸ (Option.some.inj hw).symm⟩
    rw [becomesChain, citesByChain_of_nameless hn, Bool.false_and]
  · cases hw

namespace IsMovable

variable {m : Model} {names : List Text} {t w : Text} {o : Options}
variable {r : Record} {x : GivenBody} {d : ListEntry} {k l : Token} {i : Nat} {mode : Mode}
variable {e : Edit}
/-- What is asked of a page depends on how chains and bodies are written, and on no other option. -/
theorem under (hm : m.IsMovable names t o) (o' : Options)
    (hchains : o'.useChains = o.useChains) (hbodies : o'.normalizeBodies = o.normalizeBodies) :
    m.IsMovable names t o' := by
  have hchained : ∀ r : Record, r.citesByChain o' = r.citesByChain o := fun r => by
    rw [Record.citesByChain, hchains, Record.citesByChain]
  have hedits : ∀ c, m.chainEdits o' c = m.chainEdits o c := fun c => by
    rw [chainEdits, hchains, chainEdits]
  refine ⟨hm.page, hm.cuts, hm.attributes, ?_, ?_, hm.lists, hm.added, ?_, ?_, hm.numbers⟩
  · rw [hbodies]
    exact hm.bodies
  · rw [hbodies]
    exact hm.definitions
  · intro c hc
    rw [hedits]
    exact hm.chains c hc
  · intro r hr hchain
    exact hm.chained r hr (hchained r ▸ hchain)

variable (hm : m.IsMovable names t o)
include hm

/-- The marks of the page stand one behind the other. -/
theorem eq_or_apart (hk : k ∈ (Page.ofText t).tokens names)
    (hl : l ∈ (Page.ofText t).tokens names) : k = l ∨ k.span.Apart l.span :=
  eq_or_apart_of_cuts hk hl (hm.cuts k hk).1 (hm.cuts l hl).1

/-! ## 2. What is written at tags -/

theorem name_ne (hr : r ∈ m.records) : r.name ≠ some [] := fun hnil =>
  ((hm.attributes r hr).1 [] hnil).nonempty rfl

/-- A chain that a tag becomes is read by itself. -/
theorem signs_chain (hr : r ∈ m.records) {n : Text} (hn : r.name = some n)
    (hchain : r.citesByChain o = true) :
    SelfContained names (singleChain n r.group) ∧ ∃ c : Template,
      (Page.ofText (singleChain n r.group)).tokens names = [.chain c] ∧
        signs names (singleChain n r.group) =
          [⟨.chain c.home, singleChain n r.group, [toldInChain n r.group]⟩] ∧
        citedNames c.home.paramText = [n] := by
  obtain ⟨hname, hgroup⟩ := hm.attributes r hr
  obtain ⟨hchains, hnames, hgroups⟩ := hm.chained r hr hchain
  have hvalue : ∀ {v : Text}, IsAttribute v → IsValue v := fun h => ⟨h.nonempty, h.trimmed⟩
  exact signs_singleChain ⟨hvalue (hname n hn), hnames n hn⟩
    (fun g hg => ⟨hvalue (hgroup g hg), hgroups g hg⟩) hchains

/-- What a tag reads after the move gives the body of its record, or nothing. -/
theorem reading_movedText (hr : r ∈ m.records) (hw : movedText? o r i = some w) :
    SelfContained names w ∧ ∀ x ∈ givenBodies names w, r.given? o = some x := by
  obtain ⟨hname, hgroup⟩ := hm.attributes r hr
  rcases movedText?_cases (hm.name_ne hr) hw with
    ⟨c, hc, -, rfl⟩ | ⟨n, hn, hchain, rfl⟩ | ⟨hsome, -, rfl⟩
  · obtain ⟨hself, hgiven⟩ := givenBodies_tag hname hgroup (hm.bodies r hr c hc)
      (isBlankOnly_cleaned _ (isBlankOnly_of_content? hc))
    refine ⟨hself, fun x hx => ?_⟩
    rw [fullTag, hgiven, List.mem_singleton] at hx
    rw [Record.given?, hc, hx]
    rfl
  · obtain ⟨hself, chain, htokens, -⟩ := hm.signs_chain hr hn (citesByChain_of_becomesChain hchain)
    have hnone : givenBodies names (singleChain n r.group) = [] := by
      rw [givenBodies, htokens]
      rfl
    exact ⟨hself, fun x hx => by rw [hnone] at hx; cases hx⟩
  · obtain ⟨hself, hnone⟩ : SelfContained names _ ∧ _ := givenBodies_citation hname hgroup hsome
    exact ⟨hself, fun x hx => by rw [hnone] at hx; cases hx⟩

omit hm in
/-- A tag that nothing is written at is one of a record without a body. -/
theorem content?_of_movedText? (hw : movedText? o r i = none) :
    r.content? = none := by
  rw [movedText?, Options.movedUse?] at hw
  split at hw
  · split at hw <;> cases hw
  · cases hw
  · cases hw
  · assumption

/-! ## 3. What is written in lists -/

omit hm in
theorem exists_record_of_entry (hd : d ∈ m.listEntries) :
    ∃ r ∈ m.records, r.content? = some d.body ∧ r.name = d.name ∧ r.group = d.group := by
  obtain ⟨r, hr, hrd⟩ := List.mem_filterMap.mp hd
  obtain ⟨-, c, hc, rfl⟩ := definition?_eq_some.mp hrd
  exact ⟨r, hr, hc, rfl, rfl⟩

/-- A definition gives the body of its record. -/
theorem given_entry (hd : d ∈ m.listEntries) :
    d.IsWritable names o.normalizeBodies ∧ m.Gives o (d.given o.normalizeBodies) := by
  obtain ⟨r, hr, hc, hname, hgroup⟩ := exists_record_of_entry hd
  refine ⟨⟨?_, hm.bodies r hr _ hc, isBlankOnly_cleaned _ (isBlankOnly_of_content? hc),
    hm.definitions d hd⟩,
    r, hr, ?_⟩
  · rw [← hname]
    exact (hm.attributes r hr).1
  · rw [Record.given?, hc, hname, hgroup]
    rfl

variable (h : m.Accounts (Page.ofText t) names)
include h

/-- An output list with its share of the definitions is a list of its group with these. -/
theorem isListOf_share {share : Template × List ListEntry}
    (hs : share ∈ listShares m.listEntries [] m.lists) :
    ∃ name segments, IsListOf names o.normalizeBodies share.1.group?
      (o.listStyle.arrange share.2)
      (share.1.updated t o.listStyle share.2) name segments := by
  obtain ⟨hlist, hown⟩ := mem_of_mem_listShares hs
  obtain ⟨name, segments, hcut, htext⟩ := hm.lists share.1 hlist
  have htoken : .list share.1 ∈ (Page.ofText t).tokens names := h.mem_lists.mp hlist
  obtain ⟨hfront, hback⟩ := hm.cuts _ htoken
  have hspan := Page.span_of_mem_tokens htoken
  have hord : share.1.span.start ≤ share.1.span.stop := share.1.span.ordered
  have hle : share.1.span.stop ≤ t.length := hspan.2
  have hlength : (t.take share.1.span.start).length = share.1.span.start :=
    List.length_take_of_le (Nat.le_trans hord hle)
  -- the list is the one that its own text is read as
  have htemplate : share.1 =
      (Template.ofWritten name segments).shift (t.take share.1.span.start).length := by
    have hmem := (mem_tokens_slice hord hle hfront hback).mpr
      ⟨htoken, Nat.le_refl _, hspan.1⟩
    have hslice : t.slice share.1.span.start share.1.span.stop =
        templateText name (barred segments) := hcut
    rw [hslice, (selfContained_listText htext.toIsWritable htext.wanted).2, List.map_singleton,
      List.mem_singleton] at hmem
    rw [hlength]
    exact Token.list.inj hmem
  have hpage : t = t.take share.1.span.start ++
      (templateText name (barred segments) ++ t.drop share.1.span.stop) := by
    rw [← hcut, Text.cut, slice_append_drop hord hle, List.take_append_drop]
  have hgroup : share.1.group? = (Template.ofWritten name segments).group? := by
    rw [htemplate]
    rfl
  have hwritable : ∀ d ∈ share.2, d.IsWritable names o.normalizeBodies := fun d hd =>
    (hm.given_entry (hown d hd).1).1
  obtain ⟨segments', hrebuilt⟩ := isListOf_updated htext o.listStyle hwritable
    (t.take share.1.span.start) (t.drop share.1.span.stop)
  rw [← hpage, ← htemplate, ← hgroup] at hrebuilt
  exact ⟨name, segments', hrebuilt⟩

/-- An output list with its share of the definitions gives these and no others. -/
theorem reading_share {share : Template × List ListEntry}
    (hs : share ∈ listShares m.listEntries [] m.lists) :
    let w := share.1.updated t o.listStyle share.2
    SelfContained names w ∧
      givenBodies names w =
        (o.listStyle.arrange share.2).map (ListEntry.given o.normalizeBodies) := by
  obtain ⟨-, hown⟩ := mem_of_mem_listShares hs
  obtain ⟨name, segments, hlist⟩ := hm.isListOf_share h hs
  exact hlist.givenBodies (fun d hd => (hm.given_entry (hown d (mem_arrange.mp hd)).1).1)
    fun d hd => (hown d (mem_arrange.mp hd)).2

omit h in
/-- A list that is added is one of its group with its share of the definitions. -/
theorem isListOf_newShare
    (hname : isNameOf names (canonicalName "reflist".toList) = true)
    {share : Option Text × List ListEntry}
    (hs : share ∈ newShares m.listEntries (m.lists.map (·.group?))) :
    ∃ w segments, newList share.1 o.listStyle share.2 = ['\n'] ++ w ∧
      IsListOf names o.normalizeBodies share.1 (o.listStyle.arrange share.2) w
        "reflist".toList segments := by
  obtain ⟨hserved, hne, hown⟩ := mem_of_mem_newShares hs
  obtain ⟨d, hd⟩ := List.exists_mem_of_ne_nil _ hne
  obtain ⟨hentry, hgroup⟩ := hown d hd
  have hlistGroup : ∀ g ∈ share.1, IsListGroup g := by
    rw [← hgroup]
    exact hm.added d hentry (hgroup ▸ hserved)
  exact isListOf_added hname hlistGroup o.listStyle hne
    fun d hd => (hm.given_entry (hown d hd).1).1

omit h in
/-- A list that is added gives its share of the definitions and no others. -/
theorem reading_added
    (hname : isNameOf names (canonicalName "reflist".toList) = true)
    {share : Option Text × List ListEntry}
    (hs : share ∈ newShares m.listEntries (m.lists.map (·.group?))) :
    let w := newList share.1 o.listStyle share.2
    SelfContained names w ∧
      givenBodies names w =
        (o.listStyle.arrange share.2).map (ListEntry.given o.normalizeBodies) := by
  obtain ⟨-, -, hown⟩ := mem_of_mem_newShares hs
  obtain ⟨w, segments, hlisted, hlist⟩ := hm.isListOf_newShare hname hs
  obtain ⟨hself, hgiven⟩ := hlist.givenBodies
    (fun d hd => (hm.given_entry (hown d (mem_arrange.mp hd)).1).1)
    fun d hd => (hown d (mem_arrange.mp hd)).2
  have hline := selfContained_lineEnd names
  have hnone : givenBodies names ['\n'] = [] := rfl
  simp only [hlisted]
  refine ⟨hline.append hself, ?_⟩
  rw [givenBodies_append hline, hnone, List.nil_append]
  exact hgiven

/-! ## 4. The edits of a move -/

section Edits

variable (hmode : mode ≠ .keep) (hname : isNameOf names (canonicalName "reflist".toList) = true)
include hmode hname

/-- **What the edits of a move write gives bodies of records**, and it stands in the place of a
mark or at the end of the page. -/
theorem reading_edit (he : e ∈ (m.plan o mode).1.edits) :
    (e.span = Span.empty t.length ∨ ∃ k ∈ (Page.ofText t).tokens names, e.span = k.span) ∧
      SelfContained names e.text ∧ ∀ x ∈ givenBodies names e.text, m.Gives o x := by
  have hentries : ∀ {own : List ListEntry} {x : GivenBody}, (∀ d ∈ own, d ∈ m.listEntries) →
      x ∈ (o.listStyle.arrange own).map (ListEntry.given o.normalizeBodies) → m.Gives o x := by
    intro own x hown hx
    obtain ⟨d, hd, rfl⟩ := List.mem_map.mp hx
    exact (hm.given_entry (hown d (mem_arrange.mp hd))).2
  rw [plan_edits, List.mem_append, List.mem_flatMap] at he
  rcases he with ⟨c, hc, he⟩ | he
  · have hnone : (m.chainEdits o c).1 = [] := hm.chains c hc
    rw [hnone] at he
    cases he
  · rcases mem_markEdits.mp he with ⟨r, hr, he⟩ | ⟨hkeep, -⟩ | ⟨-, he | ⟨hadded, rfl⟩⟩
    · obtain ⟨-, i, occ, w, hocc, hw, he⟩ := (mem_useEdits_moving hmode).mp he
      obtain ⟨tag, htag, rfl⟩ := h.exists_tag_of_mem (List.mem_of_getElem? hocc)
      obtain ⟨-, rfl⟩ := Page.mem_change.mp he
      obtain ⟨hself, hgiven⟩ := hm.reading_movedText hr hw
      exact ⟨.inr ⟨_, htag, rfl⟩, hself, fun x hx => ⟨r, hr, hgiven x hx⟩⟩
    · exact absurd hkeep hmode
    · obtain ⟨share, hs, he⟩ := h.mem_outputEdits.mp he
      obtain ⟨-, rfl⟩ := Page.mem_change.mp he
      obtain ⟨hlist, hown⟩ := mem_of_mem_listShares hs
      obtain ⟨hself, hgiven⟩ : SelfContained names _ ∧ _ = _ := hm.reading_share h hs
      refine ⟨.inr ⟨_, h.mem_lists.mp hlist, rfl⟩, hself, fun x hx => ?_⟩
      exact hentries (fun d hd => (hown d hd).1) (hgiven ▸ hx)
    · rw [h.page_eq, addedLists, newLists_eq]
      have hall : ∀ w ∈ (newShares m.listEntries (m.lists.map (·.group?))).map
          fun share => newList share.1 o.listStyle share.2,
          SelfContained names w ∧ ∀ x ∈ givenBodies names w, m.Gives o x := by
        intro w hw
        obtain ⟨share, hs, rfl⟩ := List.mem_map.mp hw
        obtain ⟨hself, hgiven⟩ : SelfContained names _ ∧ _ = _ := hm.reading_added hname hs
        obtain ⟨-, -, hown⟩ := mem_of_mem_newShares hs
        exact ⟨hself, fun x hx => hentries (fun d hd => (hown d hd).1) (hgiven ▸ hx)⟩
      obtain ⟨hself, hgiven⟩ := givenBodies_flatten fun w hw => (hall w hw).1
      refine ⟨.inl rfl, hself, fun x hx => ?_⟩
      rw [hgiven] at hx
      obtain ⟨w, hw, hx⟩ := List.mem_flatMap.mp hx
      exact (hall w hw).2 x hx

theorem writesMarks : WritesMarks names t (m.plan o mode).1.edits where
  page := hm.page
  cuts := hm.cuts
  place _ he := (hm.reading_edit h hmode hname he).1
  text _ he := (hm.reading_edit h hmode hname he).2.1

/-- What the page gives after a move: what is written, and what stays. -/
theorem mem_givenBodies_edited :
    x ∈ givenBodies names (Edit.applyAll t (m.plan o mode).1.edits) ↔
      (∃ e ∈ Edit.settle (m.plan o mode).1.edits, x ∈ givenBodies names e.text) ∨
        ∃ k ∈ (Page.ofText t).tokens names,
          (∀ e ∈ Edit.settle (m.plan o mode).1.edits,
            e.span.contains k.span.start = false) ∧ x ∈ (Page.ofText t).givenBy k := by
  have hbetween := (hm.writesMarks h hmode hname).between
  rw [Edit.applyAll_eq_spliced hbetween, mem_givenBodies_spliced hbetween .nil hm.page]
  · simp only [Nat.zero_le, true_and]
  · intro e he
    obtain ⟨hplace, hself, -⟩ := hm.reading_edit h hmode hname (Edit.mem_of_mem_settle he)
    rcases hplace with hend | ⟨k, hk, hspan⟩
    · have hpage : SelfContained names (t.take t.length) := by
        rw [List.take_length]
        exact hm.page
      rw [hend]
      exact ⟨hpage, hpage, hself⟩
    · rw [hspan]
      exact ⟨(hm.cuts k hk).1, (hm.cuts k hk).2, hself⟩

/-! ## 5. What the marks give after a move -/

omit h hmode hname in
/-- A mark gives what its text gives. -/
theorem mem_givenBy_iff (hk : k ∈ (Page.ofText t).tokens names) :
    x ∈ (Page.ofText t).givenBy k ↔ x ∈ givenBodies names (t.cut k.span) := by
  obtain ⟨hlt, hle⟩ := Page.span_of_mem_tokens hk
  have hle : k.span.stop ≤ t.length := hle
  rw [Text.cut, mem_givenBodies_slice k.span.ordered hle (hm.cuts k hk).1 (hm.cuts k hk).2]
  constructor
  · intro hx
    exact ⟨k, hk, Nat.le_refl _, hlt, hx⟩
  · rintro ⟨l, hl, hstart, hstop, hx⟩
    rcases hm.eq_or_apart hk hl with rfl | hapart
    · exact hx
    · have := (Page.span_of_mem_tokens hl).1
      unfold Span.Apart at hapart
      omega

/-- A text that the edits leave at a mark gives its bodies. -/
theorem given_of_leaves {w : Text} (hk : k ∈ (Page.ofText t).tokens names)
    (hleaves : (Page.ofText t).Leaves names (m.plan o mode).1.edits k k.span w)
    (hx : x ∈ givenBodies names w) :
    x ∈ givenBodies names (Edit.applyAll t (m.plan o mode).1.edits) := by
  rw [hm.mem_givenBodies_edited h hmode hname]
  by_cases hedit : ⟨k.span, w⟩ ∈ Edit.settle (m.plan o mode).1.edits
  · exact .inl ⟨_, hedit, hx⟩
  · -- the text stands there already, and no edit takes it in
    have hcut : t.cut k.span = w := hleaves.written.resolve_left hedit
    refine .inr ⟨k, hk, fun e he => ?_, (hm.mem_givenBy_iff hk).mpr (hcut ▸ hx)⟩
    rw [Bool.eq_false_iff, Ne, Span.contains_iff]
    rintro ⟨hstart, hstop⟩
    have hlt := (Page.span_of_mem_tokens hk).1
    rcases hleaves.only e he ⟨by omega, by omega⟩ with rfl | ⟨l, hl, hreading, hmeets, -⟩
    · exact hedit he
    · rcases hm.eq_or_apart (Page.mem_marks.mp hl).1 hk with rfl | hapart
      · exact hreading rfl
      · exact Span.not_meets_of_apart hapart hmeets

omit h hmode hname in
/-- What stands at a mark that no edit takes in is what the edits leave there. -/
theorem given_of_unedited {edits : List Edit} {w : Text}
    (hk : k ∈ (Page.ofText t).tokens names)
    (hleaves : (Page.ofText t).Leaves names edits k k.span w)
    (hno : ∀ e ∈ Edit.settle edits, e.span.contains k.span.start = false)
    (hx : x ∈ (Page.ofText t).givenBy k) : x ∈ givenBodies names w := by
  have hcut : t.cut k.span = w := by
    refine hleaves.written.resolve_left fun hedit => ?_
    have hfalse := hno _ hedit
    rw [Bool.eq_false_iff, Ne, Span.contains_iff] at hfalse
    exact hfalse ⟨Nat.le_refl _, (Page.span_of_mem_tokens hk).1⟩
  rw [← hcut]
  exact (hm.mem_givenBy_iff hk).mp hx

variable (hu : m.Unmerged)
include hu

omit hm hmode hname in
/-- A tag of the page is one of the tags of a record. -/
theorem exists_tagsOf {tag : RefTag} (htag : .tag tag ∈ (Page.ofText t).tokens names) :
    ∃ r ∈ m.records, tag.occurrence ∈ r.uses ∧
      ∃ i : Nat, (m.tagsOf r)[i]? = some tag.occurrence := by
  have hform : tag.occurrence.isListed = false ∧ tag.occurrence.isChained = false := by
    cases hc : tag.content <;> simp [RefTag.occurrence, Occurrence.isListed,
      Occurrence.isChained, hc]
  have hsurvey : tag.occurrence ∈ ((Page.ofText t).survey names).occurrences := by
    rw [Page.survey_eq]
    exact Page.mem_occurrencesAmong.mpr (.inl ⟨tag, htag, rfl⟩)
  have huse := h.uses.mem_iff.mpr (List.mem_filter.mpr ⟨hsurvey, by simp [hform.1]⟩)
  obtain ⟨r, hr, ho⟩ := List.mem_flatMap.mp huse
  have hmem : tag.occurrence ∈ m.tagsOf r :=
    List.mem_filter.mpr ⟨mem_usesOf_self hr (hu r hr) ho, by simp [hform.2]⟩
  exact ⟨r, hr, ho, List.mem_iff_getElem?.mp hmem⟩

omit h hm hmode hname hu in
/-- What is left where a tag stands is left at the tag. -/
theorem leaves_of_leavesTag {tag : RefTag} {edits : List Edit} {w : Text}
    (htag : .tag tag ∈ (Page.ofText t).tokens names)
    (hleaves : (Page.ofText t).LeavesTag names edits tag.occurrence w) :
    (Page.ofText t).Leaves names edits (.tag tag) tag.span w := by
  obtain ⟨tag', htag', heq, hleaves⟩ := hleaves
  have hspan : tag.span = tag'.span := congrArg Occurrence.span heq
  obtain rfl : tag = tag' := Token.tag.inj
    (Page.eq_of_start_eq htag htag' (congrArg Span.start hspan))
  exact hleaves

omit hname in
/-- A mark that no edit takes in gives bodies of records. -/
theorem gives_of_unedited (hk : k ∈ (Page.ofText t).tokens names)
    (hno : ∀ e ∈ Edit.settle (m.plan o mode).1.edits,
      e.span.contains k.span.start = false)
    (hx : x ∈ (Page.ofText t).givenBy k) : m.Gives o x := by
  cases k with
  | tag tag =>
    obtain ⟨r, hr, ho, i, hi⟩ := exists_tagsOf h hu hk
    cases hw : movedText? o r i with
    | some w =>
      have hleaves := leaves_of_leavesTag hk (h.leavesTag_moving hmode hr (hu r hr) hi hw)
      exact ⟨r, hr, (hm.reading_movedText hr hw).2 x (hm.given_of_unedited hk hleaves hno hx)⟩
    | none =>
      -- the record has no body, and so the tag has none
      have hgiven : tag.occurrence.given? = some x := by
        rw [RefTag.given?_occurrence]
        exact Option.mem_toList.mp hx
      obtain ⟨b, hb, -⟩ := Option.map_eq_some_iff.mp hgiven
      have hfull : tag.occurrence.isFull = true := by
        cases hc : tag.content with
        | none => simp [Occurrence.visibleBody?, Occurrence.body?, RefTag.occurrence, hc] at hb
        | body c n => simp [Occurrence.isFull, RefTag.occurrence, hc]
      have hnone := (visibleBody?_of_content? (content?_of_movedText? hw)).2
      rw [List.any_eq_false] at hnone
      exact absurd (by rw [hb]; rfl) (hnone _ (Record.mem_definitions_iff.mpr ⟨ho, hfull⟩))
  | list l =>
    obtain ⟨share, hs, rfl⟩ := exists_listShare m.listEntries [] (h.mem_lists.mpr hk)
    obtain ⟨-, hgiven⟩ : SelfContained names _ ∧ _ = _ :=
      hm.reading_share h hs
    have hx : x ∈ givenBodies names (share.1.updated t o.listStyle share.2) :=
      hm.given_of_unedited hk (h.leaves_share hmode hs) hno hx
    rw [hgiven] at hx
    obtain ⟨d, hd, rfl⟩ := List.mem_map.mp hx
    exact (hm.given_entry ((mem_of_mem_listShares hs).2 d (mem_arrange.mp hd)).1).2
  | chain c => cases hx
  | locator l => cases hx

/-- **After a move the page gives bodies of records, and no others.** -/
theorem gives_of_mem_edited
    (hx : x ∈ givenBodies names (Edit.applyAll t (m.plan o mode).1.edits)) :
    m.Gives o x := by
  rcases (hm.mem_givenBodies_edited h hmode hname).mp hx with ⟨e, he, hx⟩ | ⟨k, hk, hno, hx⟩
  · exact (hm.reading_edit h hmode hname (Edit.mem_of_mem_settle he)).2.2 x hx
  · exact hm.gives_of_unedited h hmode hu hk hno hx

/-- **After a move the page gives the body of every record with a name**, if there is a tag for
each body that is placed in the text. -/
theorem mem_edited_of_given (hr : r ∈ m.records) (hn : r.name.isSome)
    (htags : r.location = .inline → m.tagsOf r ≠ []) (hx : r.given? o = some x) :
    x ∈ givenBodies names (Edit.applyAll t (m.plan o mode).1.edits) := by
  obtain ⟨n, hn⟩ := Option.isSome_iff_exists.mp hn
  obtain ⟨c, hc, rfl⟩ := Option.map_eq_some_iff.mp hx
  cases hlocation : r.location with
  | inline =>
    obtain ⟨first, rest, hfirst⟩ := List.exists_cons_of_ne_nil (htags hlocation)
    have hi : (m.tagsOf r)[0]? = some first := by rw [hfirst]; rfl
    have hw : movedText? o r 0 = some (fullTag r.name r.group c o.normalizeBodies) := by
      rw [movedText?, Options.movedUse?, hn, hc]
      simp [hlocation]
    obtain ⟨tag, htag, hocc, hleaves⟩ := h.leavesTag_moving hmode hr (hu r hr) hi hw
    have hspan : first.span = tag.span := by rw [hocc]; rfl
    obtain ⟨hname', hgroup⟩ := hm.attributes r hr
    obtain ⟨-, hgiven⟩ := givenBodies_tag hname' hgroup (hm.bodies r hr c hc)
      (isBlankOnly_cleaned _ (isBlankOnly_of_content? hc))
    refine hm.given_of_leaves h hmode hname htag (hspan ▸ hleaves) ?_
    rw [fullTag, hgiven]
    exact List.mem_singleton_self _
  | listDefined =>
    have hd : (⟨r.name, r.group, c⟩ : ListEntry) ∈ m.writtenEntries :=
      (writtenEntries_perm m).mem_iff.mpr (List.mem_filterMap.mpr
        ⟨r, hr, definition?_eq_some.mpr ⟨⟨hu r hr, hlocation⟩, c, hc, rfl⟩⟩)
    rw [writtenEntries, List.mem_append, List.mem_flatMap, List.mem_flatMap] at hd
    rcases hd with ⟨share, hs, hd⟩ | ⟨share, hs, hd⟩
    · obtain ⟨hlist, -⟩ := mem_of_mem_listShares hs
      obtain ⟨-, hgiven⟩ : SelfContained names _ ∧ _ = _ :=
        hm.reading_share h hs
      refine hm.given_of_leaves h hmode hname (h.mem_lists.mp hlist)
        (h.leaves_share hmode hs) ?_
      exact hgiven ▸ List.mem_map.mpr ⟨_, mem_arrange.mpr hd, rfl⟩
    · have hadded : m.addedLists o =
          (newShares m.listEntries (m.lists.map (·.group?))).map fun share =>
            newList share.1 o.listStyle share.2 := newLists_eq _ _ _
      have hne : m.addedLists o ≠ [] := by
        rw [hadded]
        exact List.ne_nil_of_mem (List.mem_map_of_mem hs)
      rw [hm.mem_givenBodies_edited h hmode hname]
      refine .inl ⟨_, h.mem_settle_added hmode hne, ?_⟩
      have hself : ∀ w ∈ m.addedLists o, SelfContained names w := by
        intro w hw
        rw [hadded] at hw
        obtain ⟨other, ho, rfl⟩ := List.mem_map.mp hw
        exact (hm.reading_added hname ho).1
      obtain ⟨-, hgiven⟩ : SelfContained names _ ∧ _ = _ :=
        hm.reading_added hname hs
      rw [(givenBodies_flatten hself).2, List.mem_flatMap]
      refine ⟨_, hadded ▸ List.mem_map_of_mem hs, ?_⟩
      exact hgiven ▸ List.mem_map.mpr ⟨_, mem_arrange.mpr hd, rfl⟩

end Edits

end IsMovable
end Model

/-! ## 6. Runs -/

/-- A run that only moves bodies places those of the page as it is read. -/
theorem placed_moving (s : Setting) (sort : Bool) (title : Option Text) (t : Text) :
    (transform (.moving s sort) title t).placed =
      ((Model.ofText t defaultListNames).place (Mode.ofSetting s).1).1 := by
  have hmerged : (transform (.moving s sort) title t).merged = (transform {} title t).merged := rfl
  rw [placed_eq, hmerged, merged_default]
  rfl

/-- **Moved bodies are read back.**  If the bodies of a page can be moved and read again, then
after a move the dictionary of bodies has the body of each named reference, tidied, under the
identity that the reference has had before. -/
theorem moved_bodies_read_back (s : Setting) (sort : Bool) (title : Option Text) (t : Text)
    (hmode : (transform (.moving s sort) title t).mode ≠ .keep)
    (hm : (transform (.moving s sort) title t).placed.IsMovable defaultListNames t) :
    ∀ r ∈ (Model.ofText t defaultListNames).records, ∀ n c, r.name = some n →
      r.content? = some c →
        (Reference.bodies (transform (.moving s sort) title t).text defaultListNames).get? r.key =
          some (tidy c) := by
  intro r₀ hr₀ n c hn hc
  have hm := hm.under (Options.moving s sort) rfl rfl
  have h := accounts_placed (.moving s sort) title t
  have hid := identified_placed (.moving s sort) title t
  have hreflist : isNameOf defaultListNames (canonicalName "reflist".toList) = true := by decide
  have hrecords : (transform (.moving s sort) title t).placed.records =
      (Model.ofText t defaultListNames).records.map fun r =>
        ((Model.ofText t defaultListNames).locateRecord (Mode.ofSetting s).1 r).1 := by
    rw [placed_moving, Model.place_records]
  have hu : (transform (.moving s sort) title t).placed.Unmerged := by
    intro r hr
    rw [hrecords] at hr
    obtain ⟨q, hq, rfl⟩ := List.mem_map.mp hr
    rw [Model.locateRecord_fst]
    exact unmerged_ofText t defaultListNames q hq
  -- the record with the location that it gets
  have hr := List.mem_map_of_mem (f := fun r =>
    ((Model.ofText t defaultListNames).locateRecord (Mode.ofSetting s).1 r).1) hr₀
  rw [← hrecords] at hr
  obtain ⟨l, hl⟩ := Model.locateRecord_eq (Model.ofText t defaultListNames) (Mode.ofSetting s).1 r₀
  obtain ⟨r, hplaced⟩ : ∃ r : Record, r = { r₀ with location := l } := ⟨_, rfl⟩
  rw [hl, ← hplaced] at hr
  have hkey : r.key = r₀.key := by rw [hplaced]
  have hname : r.name = some n := by rw [hplaced, ← hn]
  have hbody : r.content? = some c := by
    rw [hplaced, ← hc]
    rfl
  rw [text_eq (by simp [Options.moving]), plan_eq, ← hkey]
  refine get?_bodies (by decide) (hm.numbers r hr (by rw [hname]; rfl)) ?_ ?_
  · intro x hx hxkey
    -- a body under this identity is that of the one record with this key
    obtain ⟨q, hq, hqx⟩ := hm.gives_of_mem_edited h hmode hreflist hu hx
    obtain ⟨b, hb, rfl⟩ := Option.map_eq_some_iff.mp hqx
    rw [(hid.records q hq).identity?_eq] at hxkey
    obtain ⟨-, -, hqr⟩ := Option.map_eq_some_iff.mp hxkey
    obtain rfl := List.inj_on_of_nodup_map hid.keys hq hr hqr
    rw [Option.some.inj (hb.symm.trans hbody)]
    rfl
  · refine ⟨⟨r.name, r.group, tidy c⟩, ?_, ?_⟩
    · refine hm.mem_edited_of_given h hmode hreflist hu hr (by rw [hname]; rfl) ?_ ?_
      · intro hinline
        rw [placed_eq] at hr ⊢
        exact Model.exists_tag_of_inline hr (hu r hr) (by rw [hname]; rfl) (by rw [hbody]; rfl)
          hinline
      · rw [Record.given?, hbody]
        rfl
    · rw [(hid.records r hr).identity?_eq, hname]
      rfl

/-- A page with a body at a tag and one in a list. -/
def pageOfTwoBodies : Text :=
  "See <ref name=\"a\">one</ref>.".toList ++
    "\x7b\x7breflist|refs=\n<ref name=\"b\">two</ref>\n\x7d\x7d".toList

/-- Its bodies can be moved whatever the options. -/
theorem isMovable_pageOfTwoBodies (o : Options) :
    ((Model.ofText pageOfTwoBodies defaultListNames).place .allListed).1.IsMovable
      defaultListNames pageOfTwoBodies o := by
  obtain ⟨m, hm⟩ : ∃ m, m = ((Model.ofText pageOfTwoBodies defaultListNames).place .allListed).1 :=
    ⟨_, rfl⟩
  have hplain : ∀ u ∈ ["See ".toList, ".".toList, "one".toList, "two".toList],
      '<' ∉ u ∧ hasPair '{' u = false ∧ u.getLast? ≠ some '{' := by decide
  have hbody : ∀ b ∈ ["one".toList, "two".toList], IsBody defaultListNames b := by
    have hall : ∀ b ∈ ["one".toList, "two".toList],
        b ∈ ["See ".toList, ".".toList, "one".toList, "two".toList] := by decide
    intro b hb
    obtain ⟨h, hpair, hlast⟩ := hplain b (hall b hb)
    exact isBody_of_plain _ h hpair hlast
  -- the parts of the page
  have htext : ∀ u ∈ ["See ".toList, ".".toList], SelfContained defaultListNames u := by
    have hall : ∀ u ∈ ["See ".toList, ".".toList],
        u ∈ ["See ".toList, ".".toList, "one".toList, "two".toList] := by decide
    intro u hu
    obtain ⟨h, hpair, hlast⟩ := hplain u (hall u hu)
    exact .of_unbraced _ h hpair hlast
  obtain ⟨htag, -⟩ :
      SelfContained defaultListNames (tagAround (some "a".toList) none "one".toList) ∧ _ :=
    givenBodies_tag (by decide) (by decide) (hbody _ (by decide)) (by decide)
  have hlist : IsListText defaultListNames "reflist".toList
      [refsKey ++ '=' :: definitionsValue false [⟨some "b".toList, none, "two".toList⟩]] := by
    obtain ⟨hself, hsegment⟩ : SelfContained defaultListNames
        (refsKey ++ '=' :: definitionsValue false [⟨some "b".toList, none, "two".toList⟩]) ∧ _ := by
      refine isSegment_refs isRefsLabel_refsKey fun d hd => ?_
      obtain rfl := List.mem_singleton.mp hd
      exact ⟨by decide, hbody _ (by decide), by decide, by decide +kernel⟩
    exact ⟨⟨⟨List.all_eq_true.mp (by decide), by decide⟩, by simpa using hself,
      by simpa using hsegment⟩, by decide, by decide +kernel⟩
  have hfront := (htext "See ".toList (by decide)).append htag
  have hbehind := hfront.append (htext ".".toList (by decide))
  have hpage : SelfContained defaultListNames pageOfTwoBodies :=
    hbehind.append (selfContained_listText hlist.toIsWritable hlist.wanted).1
  have hplaces : ∀ k ∈ (Page.ofText pageOfTwoBodies).tokens defaultListNames,
      (k.span.start = 4 ∧ k.span.stop = 27) ∨
        (k.span.start = 28 ∧ k.span.stop = pageOfTwoBodies.length) := by decide +kernel
  have hrecords : ∀ r ∈ m.records,
      ((∀ v ∈ r.name, IsAttribute v ∧ StandsInChain v) ∧
          ∀ v ∈ r.group, IsAttribute v ∧ StandsInChain v) ∧
        (∀ n, ∀ c ∈ r.content?, cleaned n c ∈ ["one".toList, "two".toList]) ∧
          r.key.head? ≠ some '_' := by
    rw [hm]
    decide +kernel
  have hentries : ∀ d ∈ m.listEntries, d.group = none ∧
      ∀ n, IsSegment (fullTag d.name none d.body n).veil := by
    rw [hm]
    decide +kernel
  have hchains : m.chains = [] := by
    rw [hm]
    decide +kernel
  have hlists : ∀ l ∈ m.lists, Text.cut pageOfTwoBodies l.span =
      templateText "reflist".toList (barred
        [refsKey ++ '=' :: definitionsValue false [⟨some "b".toList, none, "two".toList⟩]]) := by
    rw [hm]
    decide +kernel
  rw [← hm]
  refine ⟨hpage, fun k hk => ?_, fun r hr => ?_,
    fun r hr c hc => hbody _ ((hrecords r hr).2.1 _ c hc), fun d hd => (hentries d hd).2 _,
    fun l hl => ⟨_, _, hlists l hl, hlist⟩, fun d hd _ g hg => ?_, by simp [hchains],
    fun r hr _ => ?_, fun r hr _ n hkey => ?_⟩
  · rcases hplaces k hk with ⟨hstart, hstop⟩ | ⟨hstart, hstop⟩
    · rw [hstart, hstop]
      exact ⟨htext "See ".toList (by decide), hfront⟩
    · rw [hstart, hstop, List.take_length]
      exact ⟨hbehind, hpage⟩
  · obtain ⟨⟨hname, hgroup⟩, -⟩ := hrecords r hr
    exact ⟨fun v hv => (hname v hv).1, fun v hv => (hgroup v hv).1⟩
  · rw [(hentries d hd).1] at hg
    cases hg
  · obtain ⟨⟨hname, hgroup⟩, -⟩ := hrecords r hr
    exact ⟨by decide, fun v hv => (hname v hv).2, fun v hv => (hgroup v hv).2⟩
  · refine (hrecords r hr).2.2 ?_
    rw [hkey]
    rfl

/-- A body moves into the list in which another one stands, and both are read back. -/
theorem bodies_read_back_from_list :
    let s := Setting.value (.text "all_ldr".toList)
    let run := transform (.moving s false) none pageOfTwoBodies
    run.mode ≠ .keep ∧ run.placed.IsMovable defaultListNames pageOfTwoBodies ∧
      run.text = "See <ref name=\"a\" />.".toList ++
        ("\x7b\x7breflist|refs=\n<ref name=\"a\">one</ref>\n".toList ++
          "<ref name=\"b\">two</ref>\n\x7d\x7d".toList) ∧
      (Reference.bodies run.text defaultListNames).get? "a".toList = some "one".toList ∧
      (Reference.bodies run.text defaultListNames).get? "b".toList = some "two".toList := by
  intro s run
  have hmode : run.mode ≠ .keep := by decide +kernel
  have hmovable : run.placed.IsMovable defaultListNames pageOfTwoBodies := by
    rw [placed_moving]
    exact isMovable_pageOfTwoBodies {}
  have hread := moved_bodies_read_back s false none pageOfTwoBodies hmode hmovable
  obtain ⟨⟨a, ha, haname, hakey, habody⟩, b, hb, hbname, hbkey, hbbody⟩ :
      (∃ r ∈ (Model.ofText pageOfTwoBodies defaultListNames).records,
        r.name = some "a".toList ∧ r.key = "a".toList ∧ r.content? = some "one".toList) ∧
      ∃ r ∈ (Model.ofText pageOfTwoBodies defaultListNames).records,
        r.name = some "b".toList ∧ r.key = "b".toList ∧ r.content? = some "two".toList := by
    decide +kernel
  refine ⟨hmode, hmovable, by decide +kernel, ?_, ?_⟩
  · rw [← hakey]
    exact hread a ha _ _ haname habody
  · rw [← hbkey]
    exact hread b hb _ _ hbname hbbody

/-- A body with a bar is put into a list all the same, where the bar ends the parameter: the body
is gone for a reader. -/
theorem body_cut_at_bar :
    let t := "<ref name=\"a\">x|y</ref>".toList
    let run := transform (.moving (.value (.text "all_ldr".toList)) false) none t
    run.mode ≠ .keep ∧
      (∃ r ∈ (Model.ofText t defaultListNames).records, r.name = some "a".toList ∧
        r.key = "a".toList ∧ r.content? = some "x|y".toList) ∧
      run.text = "<ref name=\"a\" />\n\x7b\x7breflist|refs=\n".toList ++
        "<ref name=\"a\">x|y</ref>\n\x7d\x7d".toList ∧
      (Reference.bodies run.text defaultListNames).get? "a".toList = none := by
  decide +kernel

end CiteMarkup
