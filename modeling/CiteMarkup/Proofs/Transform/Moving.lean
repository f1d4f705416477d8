import CiteMarkup.Proofs.Transform.Identities
import CiteMarkup.Proofs.Transform.Leaves
import CiteMarkup.Proofs.Transform.Lists
import CiteMarkup.Proofs.Transform.Located
import Mathlib.Data.List.Flatten
/-!
# One body for each reference when bodies move

In every mode but the one that keeps bodies where they are, a named reference with a body is
either placed in the text, and then the first tag that cites it holds the body and every other
tag cites it, or placed in a list, and then all its tags cite it and one definition is written
over all lists of the page (`moves_bodies`).  A reference is placed in the text only if there is
a tag to hold its body (`exists_tag_of_inline`).

The statement is about the marks of the reference.  An edit of a mark of another kind that
overlaps them can still overwrite what is left there: a tag inside the name of a chain is gone
when the chain gets another name in its place (`overwritten_body`).
-/

namespace CiteMarkup
namespace Model

variable {m : Model} {p : Page} {names : List Text} {o : Options} {mode : Mode} {r s : Record}
variable {occ occ' : Occurrence} {e : Edit} {w : Text}

/-! ## 1. The tags of a reference -/

/-- The tags among the uses of a record and of all records merged into it, in the order of
the page. -/
def tagsOf (m : Model) (r : Record) : List Occurrence :=
  (m.usesOf r).filter fun occ => !occ.isChained

theorem mem_tagsOf : occ ∈ m.tagsOf r ↔ (∃ s ∈ m.records,
    (m.canonical s).index = r.index ∧ occ ∈ s.uses) ∧ occ.isChained = false := by
  rw [tagsOf, List.mem_filter, mem_usesOf]
  simp only [merged, List.mem_filter, decide_eq_true_eq, and_assoc, Bool.not_eq_true']

section Tags

variable (h : m.Accounts p names)
include h

/-- A tag of a record is a tag of the page, and its seat is where it begins. -/
theorem Accounts.exists_tag_of_mem (ho : occ ∈ m.tagsOf r) :
    ∃ tag, .tag tag ∈ p.tokens names ∧ occ = tag.occurrence := by
  obtain ⟨⟨s, hs, -, hu⟩, hc⟩ := mem_tagsOf.mp ho
  exact h.exists_tag hs hu hc

theorem Accounts.seat_of_mem_tagsOf (ho : occ ∈ m.tagsOf r) :
    occ.seat = .tag occ.span.start := by
  obtain ⟨tag, -, rfl⟩ := h.exists_tag_of_mem ho
  exact tag.seat_occurrence

/-- Two records that stand for themselves have no tag in common. -/
theorem Accounts.unique_tag (hr : r ∈ m.records) (hs : s ∈ m.records) (ho : occ ∈ m.tagsOf r)
    (ho' : occ' ∈ m.tagsOf s) (hstart : occ.span.start = occ'.span.start) :
    r = s ∧ occ = occ' := by
  have hseat : occ.seat = occ'.seat := by
    rw [h.seat_of_mem_tagsOf ho, h.seat_of_mem_tagsOf ho', hstart]
  obtain ⟨⟨a, ha, har, hao⟩, -⟩ := mem_tagsOf.mp ho
  obtain ⟨⟨b, hb, hbs, hbo⟩, -⟩ := mem_tagsOf.mp ho'
  obtain ⟨rfl, rfl⟩ := h.unique_use ha hb hao hbo hseat
  exact ⟨h.eq_of_index_eq hr hs (har.symm.trans hbs), rfl⟩

/-- The tags of a record stand in the order of the page, no two at one place. -/
theorem Accounts.pairwise_tagsOf (r : Record) :
    (m.tagsOf r).Pairwise fun a b => a.span.start < b.span.start := by
  have hseats : ((m.usesOf r).map Occurrence.seat).Nodup := by
    have hsub : ((m.merged r).flatMap (·.uses)).Sublist (m.records.flatMap (·.uses)) :=
      List.Sublist.flatMap List.filter_sublist _
    exact (((sortByStart_perm _ _).map _).nodup_iff).mpr
      (List.Nodup.sublist (hsub.map _) h.nodup_uses)
  have hne : (m.tagsOf r).Pairwise fun a b => a.span.start ≠ b.span.start := by
    have hnodup : ((m.tagsOf r).map Occurrence.seat).Nodup :=
      hseats.sublist (List.filter_sublist.map _)
    rw [List.Nodup, List.pairwise_map] at hnodup
    refine hnodup.imp_of_mem fun {a b} ha hb hab heq => hab ?_
    rw [h.seat_of_mem_tagsOf ha, h.seat_of_mem_tagsOf hb, heq]
  have hle : (m.tagsOf r).Pairwise fun a b => a.span.start ≤ b.span.start :=
    (pairwise_sortByStart Occurrence.start _).filter _
  refine (hne.and hle).imp ?_
  rintro a b ⟨hab, hle⟩
  omega

/-- A tag stands at one position only. -/
theorem Accounts.eq_of_getElem?_tagsOf {i j : Nat} (hi : (m.tagsOf r)[i]? = some occ)
    (hj : (m.tagsOf r)[j]? = some occ) : i = j := by
  have hpair := h.pairwise_tagsOf r
  rw [List.pairwise_iff_getElem] at hpair
  obtain ⟨hil, hie⟩ := List.getElem?_eq_some_iff.mp hi
  obtain ⟨hjl, hje⟩ := List.getElem?_eq_some_iff.mp hj
  rcases Nat.lt_trichotomy i j with hlt | heq | hlt
  · have := hpair i j hil hjl hlt
    rw [hie, hje] at this
    exact absurd this (Nat.lt_irrefl _)
  · exact heq
  · have := hpair j i hjl hil hlt
    rw [hie, hje] at this
    exact absurd this (Nat.lt_irrefl _)

end Tags

/-! ## 2. What moving writes at a tag -/

/-- What the tag at position `i` among the tags of a record reads if bodies move. -/
def movedText? (o : Options) (r : Record) (i : Nat) : Option Text :=
  o.movedUse? r (r.location = .inline && i = 0)

theorem mem_moveUses_iff {tags : List Occurrence} : e ∈ m.moveUses o r tags ↔
    ∃ i occ w, tags[i]? = some occ ∧ movedText? o r i = some w ∧ e ∈ m.page.change occ.span w := by
  rw [moveUses, List.mem_flatten]
  constructor
  · rintro ⟨l, hl, he⟩
    obtain ⟨i, hi, rfl⟩ := List.mem_mapIdx.mp hl
    split at he
    · rename_i w hw
      exact ⟨i, tags[i], w, List.getElem?_eq_getElem hi, hw, he⟩
    · cases he
  · rintro ⟨i, occ, w, hocc, hw, he⟩
    obtain ⟨hi, rfl⟩ := List.getElem?_eq_some_iff.mp hocc
    refine ⟨_, List.mem_mapIdx.mpr ⟨i, hi, rfl⟩, ?_⟩
    rw [movedText?] at hw
    simpa only [hw] using he

theorem mem_useEdits_moving (hmode : mode ≠ .keep) : e ∈ m.useEdits o mode r ↔
    r.canonical = r.index ∧ ∃ i occ w, (m.tagsOf r)[i]? = some occ ∧
      movedText? o r i = some w ∧ e ∈ m.page.change occ.span w := by
  have hmoved : e ∈ (m.moveRecord o r).1.edits ↔ r.canonical = r.index ∧
      e ∈ m.moveUses o r (m.tagsOf r) := by
    unfold moveRecord
    split
    · rename_i hself
      simp only [hself, true_and, tagsOf]
    · rename_i hself
      simp [hself]
  rw [← mem_moveUses_iff, ← hmoved]
  cases mode with
  | keep => exact absurd rfl hmode
  | allInline => rfl
  | allListed => rfl
  | threshold n => rfl

/-- **What moving leaves at a tag** is what its position among the tags of its record says. -/
theorem Accounts.leavesTag_moving (h : m.Accounts p names) (hmode : mode ≠ .keep)
    (hr : r ∈ m.records) (hself : r.canonical = r.index) {i : Nat}
    (hi : (m.tagsOf r)[i]? = some occ) (hw : movedText? o r i = some w) :
    p.LeavesTag names (m.plan o mode).1.edits occ w := by
  have ho : occ ∈ m.tagsOf r := List.mem_of_getElem? hi
  obtain ⟨tag, htag, hocc⟩ := h.exists_tag_of_mem ho
  have hspan : occ.span = tag.span := by rw [hocc]; rfl
  refine ⟨tag, htag, hocc, ?_⟩
  rw [hspan]
  refine h.leaves_tag htag ?_ ?_
  · intro s hs e he hespan
    obtain ⟨-, j, occ', w', hj, hw', he'⟩ := (mem_useEdits_moving hmode).mp he
    have hstart : occ'.span.start = occ.span.start := by
      rw [← Page.span_of_mem_change he', hespan, hspan]
    obtain ⟨rfl, rfl⟩ := h.unique_tag hs hr (List.mem_of_getElem? hj) ho hstart
    have hij : j = i := h.eq_of_getElem?_tagsOf hj hi
    subst hij
    obtain rfl : w' = w := Option.some.inj (hw'.symm.trans hw)
    rw [(Page.mem_change.mp he').2]
  · by_cases hcut : p.raw.cut tag.span = w
    · exact .inl hcut
    · refine .inr ⟨r, hr, (mem_useEdits_moving hmode).mpr ⟨hself, i, occ, w, hi, hw, ?_⟩⟩
      rw [← hspan] at hcut ⊢
      rw [h.page_eq]
      exact Page.mem_change.mpr ⟨hcut, rfl⟩

/-! ## 3. A tag for every body in the text -/

/-- **A record stands where its name and its uses say.** -/
theorem location_of_mem_place {m₀ : Model} (hr : r ∈ (m₀.place mode).1.records)
    (hself : r.canonical = r.index) :
    r.location = (locate mode r ((m₀.place mode).1.usesOf r)).1 := by
  rw [place_records] at hr
  obtain ⟨r₀, hr₀, rfl⟩ := List.mem_map.mp hr
  rw [locateRecord_fst] at hself ⊢
  have hself₀ : r₀.canonical = r₀.index := hself
  rw [place_eq_relocated, usesOf_relocated]
  change m₀.locationIn mode r₀ = _
  rw [locationIn, locateRecord, if_pos hself₀]
  -- the location that a record has had says nothing about the one that it gets
  rfl

/-- A body is placed in the text only if one of the uses is a tag. -/
theorem exists_tag_of_locate {uses : List Occurrence} (hname : r.name.isSome)
    (hbody : r.content?.isSome) (hinline : (locate mode r uses).1 = .inline) :
    uses.filter (fun occ => !occ.isChained) ≠ [] := by
  intro hnil
  have hall : uses.all (·.isChained) = true := by
    rw [List.all_eq_true]
    intro occ hocc
    by_contra hc
    have hmem : occ ∈ uses.filter fun occ => !occ.isChained :=
      List.mem_filter.mpr ⟨hocc, by simpa using hc⟩
    rw [hnil] at hmem
    cases hmem
  unfold locate at hinline
  split at hinline
  · rename_i hnone
    rw [hnone] at hname
    cases hname
  · split at hinline
    · cases hinline
    · rw [if_pos (by rw [hbody, hall]; rfl)] at hinline
      cases hinline

/-- **A body is placed in the text only if a tag there can hold it.** -/
theorem exists_tag_of_inline {m₀ : Model} (hr : r ∈ (m₀.place mode).1.records)
    (hself : r.canonical = r.index) (hname : r.name.isSome) (hbody : r.content?.isSome)
    (hinline : r.location = .inline) : (m₀.place mode).1.tagsOf r ≠ [] := by
  rw [location_of_mem_place hr hself] at hinline
  exact exists_tag_of_locate hname hbody hinline

/-! ## 4. Definitions over all lists -/

/-- The definitions that a plan writes when bodies move: those of the lists on the page, and
those of the lists that are added at its end. -/
def writtenEntries (m : Model) : List ListEntry :=
  (listShares m.listEntries [] m.lists).flatMap (·.2) ++
    (newShares m.listEntries (m.lists.map (·.group?))).flatMap (·.2)

theorem writtenEntries_perm (m : Model) : m.writtenEntries.Perm m.listEntries :=
  shares_perm m.listEntries m.lists

/-- A definition is one of the record `r`, named `n`. -/
def isEntryOf (r : Record) (n : Text) (e : ListEntry) : Bool :=
  e.name = some n && e.group = r.group

theorem definition?_eq_some {d : ListEntry} : r.definition? = some d ↔
    (r.canonical = r.index ∧ r.location = .listDefined) ∧
      ∃ c, r.content? = some c ∧ (⟨r.name, r.group, c⟩ : ListEntry) = d := by
  rw [Record.definition?]
  split
  · rename_i hc
    simp only [Bool.and_eq_true, decide_eq_true_eq] at hc
    simp [hc]
  · rename_i hc
    simp only [Bool.and_eq_true, decide_eq_true_eq] at hc
    simp [hc]

/-- The records that have a definition of the name and the group of `r` are `r` itself. -/
theorem filter_listEntries (h : m.Accounts p names) (hid : m.Identified) (hr : r ∈ m.records)
    {n : Text} (hn : r.name = some n) :
    m.listEntries.filter (isEntryOf r n) = r.definition?.toList := by
  have mine : ∀ s ∈ m.records, ∀ d, s.definition? = some d → isEntryOf r n d = true →
      s = r := by
    intro s hs d hd he
    obtain ⟨-, c, -, rfl⟩ := definition?_eq_some.mp hd
    simp only [isEntryOf, Bool.and_eq_true, decide_eq_true_eq] at he
    exact hid.eq_of_name_eq hs hr he.1 hn he.2
  have itself : ∀ d, r.definition? = some d → isEntryOf r n d = true := by
    intro d hd
    obtain ⟨-, c, -, rfl⟩ := definition?_eq_some.mp hd
    simp [isEntryOf, hn]
  -- the records before and behind `r` give no definition that counts
  have none_of : ∀ l : List Record, (∀ s ∈ l, s ∈ m.records ∧ s ≠ r) →
      (l.filterMap (·.definition?)).filter (isEntryOf r n) = [] := by
    intro l hl
    rw [List.filter_eq_nil_iff]
    intro d hd he
    obtain ⟨s, hs, hsd⟩ := List.mem_filterMap.mp hd
    exact (hl s hs).2 (mine s (hl s hs).1 d hsd he)
  obtain ⟨before, after, heq⟩ := List.append_of_mem hr
  have hn' := h.indices
  rw [heq, List.map_append, List.map_cons, List.nodup_append, List.nodup_cons] at hn'
  have hbefore := none_of before fun s hs =>
    ⟨heq ▸ List.mem_append_left _ hs, fun hsr => hn'.2.2 s.index (List.mem_map_of_mem hs)
      r.index List.mem_cons_self (by rw [hsr])⟩
  have hafter := none_of after fun s hs =>
    ⟨heq ▸ List.mem_append_right _ (List.mem_cons_of_mem _ hs), fun hsr =>
      hn'.2.1.1 (hsr ▸ List.mem_map_of_mem hs)⟩
  rw [listEntries, heq, List.filterMap_append, List.filter_append, hbefore, List.nil_append]
  cases hd : r.definition? with
  | none => rw [List.filterMap_cons_none hd, hafter]; rfl
  | some d =>
    rw [List.filterMap_cons_some hd, List.filter_cons_of_pos (itself d hd), hafter]
    rfl

/-- **Over all lists, a reference placed in a list has one definition, and one placed in the
text has none.** -/
theorem filter_writtenEntries (h : m.Accounts p names) (hid : m.Identified)
    (hr : r ∈ m.records) {n : Text} (hn : r.name = some n) :
    m.writtenEntries.filter (isEntryOf r n) = r.definition?.toList := by
  have hp := (writtenEntries_perm m).filter (isEntryOf r n)
  rw [filter_listEntries h hid hr hn] at hp
  cases hd : r.definition? with
  | none =>
    rw [hd] at hp
    exact hp.eq_nil
  | some d =>
    rw [hd] at hp
    exact List.perm_singleton.mp hp

/-! ## 5. What becomes of the lists -/

section Lists

variable (h : m.Accounts p names)
include h

theorem Accounts.pairwise_lists :
    m.lists.Pairwise fun s t => s.span.start < t.span.start := by
  rw [h.lists_eq, Page.survey_eq]
  exact pairwise_listsAmong (Page.pairwise_lt_tokens p names)

/-- A list has one share of the definitions. -/
theorem Accounts.unique_share {entries : List ListEntry} {s t : Template × List ListEntry}
    (hs : s ∈ listShares entries [] m.lists) (ht : t ∈ listShares entries [] m.lists)
    (hstart : s.1.span.start = t.1.span.start) : s = t := by
  have hn : ((listShares entries [] m.lists).map
      ((fun t : Template => t.span.start) ∘ Prod.fst)).Nodup := by
    rw [← List.map_map, listShares_fst, List.Nodup, List.pairwise_map]
    exact h.pairwise_lists.imp fun hlt => Nat.ne_of_lt hlt
  exact List.inj_on_of_nodup_map hn hs ht hstart

theorem Accounts.mem_outputEdits : e ∈ m.outputEdits o ↔
    ∃ s ∈ listShares m.listEntries [] m.lists,
      e ∈ p.change s.1.span (s.1.updated p.raw o.listStyle s.2) := by
  rw [outputEdits, listEdits_eq, List.mem_flatMap, h.page_eq]

/-- **What moving leaves at an output list** is the list with its share of the definitions. -/
theorem Accounts.leaves_share (hmode : mode ≠ .keep) {s : Template × List ListEntry}
    (hs : s ∈ listShares m.listEntries [] m.lists) :
    p.Leaves names (m.plan o mode).1.edits (.list s.1) s.1.span
      (s.1.updated p.raw o.listStyle s.2) := by
  have ht : .list s.1 ∈ p.tokens names := by
    rw [← h.mem_lists, ← listShares_fst m.listEntries m.lists []]
    exact List.mem_map_of_mem hs
  refine h.leaves_list hmode ht (fun e he hspan => ?_) ?_
  · obtain ⟨t, hmem, he⟩ := h.mem_outputEdits.mp he
    have heq := Page.span_of_mem_change he
    obtain rfl := h.unique_share hmem hs (by rw [← heq, hspan])
    rw [(Page.mem_change.mp he).2]
  · by_cases hcut : p.raw.cut s.1.span = s.1.updated p.raw o.listStyle s.2
    · exact .inl hcut
    · exact .inr (h.mem_outputEdits.mpr ⟨s, hs, Page.mem_change.mpr ⟨hcut, rfl⟩⟩)

/-- The lists for groups without one are added at the end of the page. -/
theorem Accounts.mem_settle_added (hmode : mode ≠ .keep) (hadded : m.addedLists o ≠ []) :
    ⟨Span.empty p.raw.length, (m.addedLists o).flatten⟩ ∈
      Edit.settle (m.plan o mode).1.edits := by
  refine mem_settle_plan (mem_markEdits.mpr (.inr (.inr ⟨hmode, .inr ⟨hadded, ?_⟩⟩))) ?_
  · rw [h.page_eq]
  · intro f hf hspan
    -- a mark of the page does not begin at its end
    have before : ∀ {k : Token}, k ∈ p.tokens names → f.span ≠ k.span := by
      intro k hk heq
      obtain ⟨hlt, hle⟩ := Page.span_of_mem_tokens hk
      have hend : f.span = Span.empty p.raw.length := hspan
      rw [← heq, hend] at hlt
      exact Nat.lt_irrefl _ hlt
    rcases mem_markEdits.mp hf with ⟨r, hr, hf⟩ | ⟨hm, -⟩ | ⟨-, hf | ⟨-, hf⟩⟩
    · obtain ⟨s, hs, occ, ho, hc, hspan⟩ := exists_use hr hf
      obtain ⟨tag, htag, rfl⟩ := h.exists_tag hs ho hc
      exact absurd hspan (before htag)
    · exact absurd hm hmode
    · obtain ⟨t, ht, hspan⟩ := mem_listEdits hf
      exact absurd hspan (before (h.mem_lists.mp ht))
    · rw [hf, h.page_eq]

end Lists

/-! ## 6. Every body once -/

/-- What a tag that does not hold the body of the record `r`, named `n`, is to read. -/
def citing (o : Options) (r : Record) (n : Text) : Text :=
  citation (some n) r.group (o.useChains == some true)

/-- The body `c` of the record `r`, named `n`, stands in one place once bodies have moved. -/
structure OneBody (m : Model) (p : Page) (names : List Text) (o : Options) (edits : List Edit)
    (r : Record) (n c : Text) : Prop where
  /-- The tags of the record, in the order of the page. -/
  order : (m.tagsOf r).Pairwise fun a b => a.span.start < b.span.start
  /-- In the text: at the first tag, and in no list. -/
  inline : r.location = .inline → ∃ first rest, m.tagsOf r = first :: rest ∧
    p.LeavesTag names edits first (fullTag (some n) r.group c o.normalizeBodies) ∧
    (∀ occ ∈ rest, p.LeavesTag names edits occ (citing o r n)) ∧
    m.writtenEntries.filter (isEntryOf r n) = []
  /-- In a list: in one definition of all that are written, and at no tag. -/
  listed : r.location = .listDefined →
    (∀ occ ∈ m.tagsOf r, p.LeavesTag names edits occ (citing o r n)) ∧
    m.writtenEntries.filter (isEntryOf r n) = [⟨some n, r.group, c⟩]

/-- All lists are rebuilt: those of the page with their shares of the definitions, the old
definitions gone, and new ones for groups without a list. -/
structure Rebuilt (m : Model) (p : Page) (names : List Text) (o : Options)
    (edits : List Edit) : Prop where
  lists : ∀ s ∈ listShares m.listEntries [] m.lists,
    p.Leaves names edits (.list s.1) s.1.span (s.1.updated p.raw o.listStyle s.2)
  shown : ∀ s ∈ listShares m.listEntries [] m.lists, s.2 ≠ [] →
    o.listStyle.value s.2 <:+: s.1.updated p.raw o.listStyle s.2
  added : newShares m.listEntries (m.lists.map (·.group?)) ≠ [] →
    ⟨Span.empty p.raw.length, ((newShares m.listEntries (m.lists.map (·.group?))).map
      fun s => newList s.1 o.listStyle s.2).flatten⟩ ∈ Edit.settle edits
  replaced : ∀ r ∈ m.records, ∀ d ∈ r.listed, ∃ s ∈ listShares m.listEntries [] m.lists,
    ∃ a b, s.1.span.start ≤ a ∧ a ≤ d.span.start ∧ d.span.stop ≤ b ∧ b ≤ s.1.span.stop ∧
      s.1.updated p.raw o.listStyle s.2 = p.raw.slice s.1.span.start a ++
        (if s.2.isEmpty then [] else o.listStyle.value s.2) ++ p.raw.slice b s.1.span.stop

section Every

variable (h : m.Accounts p names)
include h

/-- A tag that is not to hold the body is left as a citation. -/
theorem Accounts.leavesTag_citing (hmode : mode ≠ .keep) (hr : r ∈ m.records)
    (hself : r.canonical = r.index) {n c : Text} (hn : r.name = some n)
    (hc : r.content? = some c) {i : Nat} (hi : (m.tagsOf r)[i]? = some occ)
    (hholds : (decide (r.location = .inline) && decide (i = 0)) = false) :
    p.LeavesTag names (m.plan o mode).1.edits occ (citing o r n) := by
  refine h.leavesTag_moving hmode hr hself hi ?_
  rw [movedText?, Options.movedUse?, hn, hc]
  simp only [hholds]
  rfl

theorem Accounts.oneBody (hid : m.Identified) (hmode : mode ≠ .keep) (hr : r ∈ m.records)
    (hself : r.canonical = r.index) {n c : Text} (hn : r.name = some n)
    (hc : r.content? = some c) (htags : r.location = .inline → m.tagsOf r ≠ []) :
    m.OneBody p names o (m.plan o mode).1.edits r n c where
  order := h.pairwise_tagsOf r
  inline := by
    intro hinline
    obtain ⟨first, rest, heq⟩ := List.exists_cons_of_ne_nil (htags hinline)
    refine ⟨first, rest, heq, ?_, fun occ ho => ?_, ?_⟩
    · refine h.leavesTag_moving hmode hr hself (i := 0) (by rw [heq]; rfl) ?_
      rw [movedText?, Options.movedUse?, hn, hc]
      simp [hinline]
    · obtain ⟨i, hi⟩ := List.mem_iff_getElem?.mp ho
      exact h.leavesTag_citing hmode hr hself hn hc (i := i + 1)
        (by rw [heq, List.getElem?_cons_succ, hi]) (by simp)
    · rw [filter_writtenEntries h hid hr hn, Record.definition?, if_neg (by simp [hinline])]
      rfl
  listed := by
    intro hlisted
    refine ⟨fun occ ho => ?_, ?_⟩
    · obtain ⟨i, hi⟩ := List.mem_iff_getElem?.mp ho
      exact h.leavesTag_citing hmode hr hself hn hc hi (by simp [hlisted])
    · rw [filter_writtenEntries h hid hr hn, Record.definition?,
        if_pos (by simp [hself, hlisted]), hc, hn]
      rfl

theorem Accounts.rebuilt (hv : p.IsVeiled) (hmode : mode ≠ .keep) :
    m.Rebuilt p names o (m.plan o mode).1.edits where
  lists := fun _ hs => h.leaves_share hmode hs
  shown := fun s _ hown => s.1.value_infix_updated p.raw o.listStyle hown
  added := by
    intro hne
    have heq : m.addedLists o = (newShares m.listEntries (m.lists.map (·.group?))).map
        fun s => newList s.1 o.listStyle s.2 := newLists_eq _ _ _
    rw [← heq]
    exact h.mem_settle_added hmode (by rw [heq]; simpa using hne)
  replaced := by
    intro r hr d hd
    obtain ⟨t, ht, hdt⟩ := h.exists_list hr hd
    obtain ⟨s, hs, rfl⟩ := exists_listShare m.listEntries [] (h.mem_lists.mpr ht)
    have hi := Page.isInvocation_of_mem_templates (Page.mem_tokens_list.mp ht)
    obtain ⟨span, hspan, hstart, hstop, -⟩ := Page.span_of_mem_listedIn hdt
    obtain ⟨a, b, h1, h2, h3, h4, heq⟩ := hi.updated_eq hv hspan o.listStyle s.2
    exact ⟨s, hs, a, b, h1, by omega, by omega, h4, heq⟩

end Every
end Model

/-- **Where bodies move, each named reference with a body keeps it in one place.**  If it is
placed in the text, the first tag that cites it or one merged into it holds the body, and
there is such a tag; if it is placed in a list, one definition over all lists does.  All its
other tags cite it by its name and group, and all old definitions are gone from the lists. -/
theorem moves_bodies (o : Options) (title : Option Text) (t : Text)
    (hmode : (transform o title t).mode ≠ .keep) :
    (∀ r ∈ (transform o title t).placed.records, r.canonical = r.index →
      ∀ n c, r.name = some n → r.content? = some c →
        (transform o title t).placed.OneBody (Page.ofText t) o.listNames.toList o
          (transform o title t).plan.edits r n c) ∧
      (transform o title t).placed.Rebuilt (Page.ofText t) o.listNames.toList o
        (transform o title t).plan.edits := by
  have h := accounts_placed o title t
  rw [plan_eq]
  refine ⟨fun r hr hself n c hn hc => ?_, h.rebuilt (Page.isVeiled_ofText t) hmode⟩
  refine h.oneBody (identified_placed o title t) hmode hr hself hn hc fun hinline => ?_
  rw [placed_eq] at hr ⊢
  exact Model.exists_tag_of_inline hr hself (by rw [hn]; rfl) (by rw [hc]; rfl) hinline

/-- A body comes to the tag in front of its list. -/
theorem moves_bodies_out_of_a_list :
    let o : Options := { location := .value (.text "all_inline".toList) }
    let t := "<ref name=\"a\"/>\x7b\x7breflist|refs=<ref name=\"a\">body</ref>\x7d\x7d".toList
    let run := transform o none t
    run.mode ≠ .keep ∧ ∃ r ∈ run.placed.records, r.location = .inline ∧
      run.placed.OneBody (Page.ofText t) defaultListNames o run.plan.edits r "a".toList
        "body".toList := by
  intro o t run
  have hmode : run.mode ≠ .keep := by decide +kernel
  obtain ⟨r, hr, hself, hinline, hname, hbody⟩ : ∃ r ∈ run.placed.records,
      r.canonical = r.index ∧ r.location = .inline ∧ r.name = some "a".toList ∧
        r.content? = some "body".toList := by decide +kernel
  exact ⟨hmode, r, hr, hinline, (moves_bodies o none t hmode).1 r hr hself _ _ hname hbody⟩

/-- A tag that is the name of a chain: the tag is to hold its body, but the name of the chain
gets a new one, and the body goes with the old. -/
theorem overwritten_body :
    let run := transform { location := .value (.text "all_inline".toList)
                           renameMap := [("<ref name=\"x\">body</ref>".toList,
                             some "z".toList)] } none
      "\x7b\x7br|1=<ref name=\"x\">body</ref>\x7d\x7d".toList
    run.mode = .allInline ∧
      (∃ r ∈ run.placed.records, r.canonical = r.index ∧ r.location = .inline ∧
        r.name = some "x".toList ∧ r.content? = some "body".toList) ∧
      run.text = "\x7b\x7br|1=z\x7d\x7d".toList := by
  decide +kernel

end CiteMarkup
