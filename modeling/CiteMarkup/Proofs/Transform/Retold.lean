import CiteMarkup.Proofs.Transform.Signs
/-!
# What a page tells after a move

A page on which bodies can be moved twice is steady (`Model.IsSteady`).  After a move it has the
same uses in the same order (`map_useKey_edited`), its tags are those of the old page with new
texts (`map_cut_tagsOf`), and each reference has the body that it has had, cleaned
(`content?_edited`).
-/

namespace CiteMarkup

theorem saidIn_eq (names : List Text) (t : Text) : saidIn names t =
    ((Page.ofText t).survey names).occurrences.map (Page.ofText t).tell := by
  rw [Page.told_occurrences, saidIn, signs, List.flatMap_map]
  rfl

namespace Model
namespace IsSteady

variable {m m' : Model} {names : List Text} {t w : Text} {o : Options}
variable {r r' : Record} {k l : Token} {i : Nat} {mode : Mode} {tag : RefTag} {x : Ref}
variable (hm : m.IsSteady names t o) (h : m.IsFiled mode (Page.ofText t) names)
variable (hmode : mode ≠ .keep) (hname : isNameOf names (canonicalName "reflist".toList) = true)
include hm h hmode hname

/-! ## 1. What the new page tells -/

theorem said_tag (htag : .tag tag ∈ (Page.ofText t).tokens names) :
    ∃ occ, saidIn names (m.textAt o mode t tag.span) = [(occ, m.textAt o mode t tag.span)] ∧
      occ.name = tag.name? ∧ occ.group = tag.group? ∧ occ.isListed = false ∧
      occ.isChained = m.chainsAt o tag.occurrence ∧
      (tag.name? = none → ∀ b, occ.visibleBody? = some b →
        m.textAt o mode t tag.span = fullTag none tag.group? b o.normalizeBodies) := by
  obtain ⟨σ, hsigns, htext, huse⟩ := hm.signs_left_tag h hmode hname htag
  obtain ⟨occ, hsaid, hrest⟩ := huse.said
  rw [htext] at hsaid hrest
  refine ⟨occ, ?_, hrest⟩
  rw [saidIn, hsigns, List.flatMap_singleton, hsaid]

theorem said_other (hk : k ∈ (Page.ofText t).tokens names) (htag : ∀ tag, k ≠ .tag tag)
    (hlist : ∀ l, k ≠ .list l) :
    saidIn names (m.textAt o mode t k.span) = (Page.ofText t).tells k := by
  rw [saidIn, hm.signs_left_other h hmode hname hk htag hlist, List.flatMap_singleton]
  rfl

theorem said_list {share : Template × List ListEntry}
    (hs : share ∈ listShares m.listEntries [] m.lists) :
    saidIn names (m.textAt o mode t share.1.span) =
      (o.listStyle.arrange share.2).map (·.told o.normalizeBodies) := by
  obtain ⟨σ, hsigns, name, segments, -, hσ⟩ :=
    hm.signs_left_list h hmode hname hs
  rw [saidIn, hsigns, hσ]
  exact List.flatMap_singleton ..

omit h hmode in
theorem said_newList {share : Option Text × List ListEntry}
    (hs : share ∈ newShares m.listEntries (m.lists.map (·.group?))) :
    saidIn names (newList share.1 o.listStyle share.2) =
      (o.listStyle.arrange share.2).map (·.told o.normalizeBodies) := by
  obtain ⟨σ, hsigns, name, segments, -, hσ⟩ :=
    hm.signs_newList hname hs
  rw [saidIn, hsigns, hσ]
  exact List.flatMap_singleton ..

/-- **What the new page tells**: what is left at each mark, and what is added. -/
theorem saidIn_edited :
    saidIn names (Edit.applyAll t (m.plan o mode).1.edits) =
      ((Page.ofText t).tokens names).flatMap
          (fun k => saidIn names (m.textAt o mode t k.span)) ++
        (newShares m.listEntries (m.lists.map (·.group?))).flatMap fun share =>
          saidIn names (newList share.1 o.listStyle share.2) := by
  rw [saidIn, hm.signs_edited h hmode hname, List.flatMap_append, List.flatMap_assoc,
    List.flatMap_assoc]
  rfl

/-- What is told apart from definitions in lists, mark by mark. -/
theorem map_filter_saidIn {β : Type} {q : Told → Bool} {f : Told → β} {g : Token → List β}
    (hlisted : ∀ y : Told, y.1.isListed = true → q y = false)
    (htag : ∀ tag, .tag tag ∈ (Page.ofText t).tokens names → ∀ occ : Occurrence,
      occ.name = tag.name? → occ.group = tag.group? → occ.isListed = false →
        occ.isChained = m.chainsAt o tag.occurrence →
          ([(occ, m.textAt o mode t tag.span)].filter q).map f = g (.tag tag))
    (hchain : ∀ c, (((Page.ofText t).tells (.chain c)).filter q).map f = g (.chain c))
    (hlocator : ∀ c, g (.locator c) = []) (hlist : ∀ l, g (.list l) = []) :
    ((saidIn names (Edit.applyAll t (m.plan o mode).1.edits)).filter q).map f =
      ((Page.ofText t).tokens names).flatMap g := by
  have hnone : ∀ ds : List ListEntry, (ds.map (·.told o.normalizeBodies)).filter q = [] := fun ds =>
    List.filter_eq_nil_iff.mpr fun y hy => by
      obtain ⟨d, -, rfl⟩ := List.mem_map.mp hy
      rw [hlisted _ rfl]
      exact Bool.false_ne_true
  have hnew : ((newShares m.listEntries (m.lists.map (·.group?))).flatMap fun share =>
      saidIn names (newList share.1 o.listStyle share.2)).filter q = [] := by
    rw [List.filter_flatMap, List.flatMap_eq_nil_iff]
    intro share hs
    rw [hm.said_newList hname hs, hnone]
  rw [hm.saidIn_edited h hmode hname, List.filter_append, hnew, List.append_nil,
    List.filter_flatMap, List.map_flatMap]
  refine List.flatMap_congr fun k hk => ?_
  cases k with
  | tag tag =>
    obtain ⟨occ, hsaid, hn, hg, hl, hc, -⟩ := hm.said_tag h hmode hname hk
    rw [← htag tag hk occ hn hg hl hc, ← hsaid]
    rfl
  | chain c => rw [hm.said_other h hmode hname hk (by simp) (by simp), hchain]
  | locator c =>
    rw [hm.said_other h hmode hname hk (by simp) (by simp), hlocator]
    rfl
  | list l =>
    obtain ⟨share, hs, rfl⟩ := exists_listShare m.listEntries [] (h.mem_lists.mpr hk)
    rw [Token.span_list, hm.said_list h hmode hname hs, hnone, hlist]
    rfl

omit hm h hmode hname in
/-- What a page tells apart from definitions in lists, mark by mark. -/
theorem map_filter_occurrences {β : Type} {q : Occurrence → Bool} {f : Occurrence → β}
    {g : Token → List β} (p : Page) (hlisted : ∀ o : Occurrence, o.isListed = true → q o = false)
    (htag : ∀ tag : RefTag, ([tag.occurrence].filter q).map f = g (.tag tag))
    (hchain : ∀ n c, (((⟨n, c, placedEntries c.paramText⟩ : Chain).occurrences).filter q).map f =
      g (.chain c))
    (hlocator : ∀ c, g (.locator c) = []) (hlist : ∀ l, g (.list l) = []) :
    ((p.survey names).occurrences.filter q).map f = (p.tokens names).flatMap g := by
  have among : ∀ (ks : List Token) (n : Nat),
      ((p.occurrencesAmong n ks).filter q).map f = ks.flatMap g := by
    intro ks
    induction ks with
    | nil => exact fun _ => rfl
    | cons k ks ih =>
      intro n
      cases k with
      | tag tag =>
        have happend : p.occurrencesAmong n (.tag tag :: ks) =
            [tag.occurrence] ++ p.occurrencesAmong n ks := rfl
        rw [happend, List.filter_append, List.map_append, htag, ih, List.flatMap_cons]
      | chain c =>
        rw [Page.occurrencesAmong, List.filter_append, List.map_append, hchain, ih,
          List.flatMap_cons]
      | locator c => rw [Page.occurrencesAmong, ih, List.flatMap_cons, hlocator, List.nil_append]
      | list l =>
        have hnone : (p.listedIn l).filter q = [] := List.filter_eq_nil_iff.mpr fun o ho => by
          rw [hlisted o (isListed_of_mem_listedIn ho)]
          exact Bool.false_ne_true
        rw [Page.occurrencesAmong, List.filter_append, hnone, List.nil_append, ih,
          List.flatMap_cons, hlist, List.nil_append]
  rw [Page.survey_eq]
  exact among _ 0

/-! ## 2. Uses -/

/-- The uses that a mark makes. -/
def useKeys : Token → List UseKey
  | .tag tag => [(tag.name?, tag.group?)]
  | .chain c => citedBy ((placedEntries c.paramText).map (·.toEntry))
  | .locator _ | .list _ => []

omit hm h hmode hname in
theorem map_useKey_tell (p : Page) (os : List Occurrence) :
    ((os.map p.tell).filter fun y => !y.1.isListed).map (fun y => useKey y.1) =
      (os.filter fun o => !o.isListed).map useKey := by
  have hkey : (fun y : Told => useKey y.1) ∘ p.tell = useKey := by
    funext o
    simp [useKey, Page.tell]
  have hlisted : (fun y : Told => !y.1.isListed) ∘ p.tell = fun o => !o.isListed := by
    funext o
    simp [Page.tell]
  rw [List.filter_map, List.map_map, hkey, hlisted]

omit hm h hmode hname in
theorem map_useKey_chain (c : Chain) : (c.occurrences.filter fun o => !o.isListed).map useKey =
    citedBy c.plainEntries := by
  rw [← c.map_cited_occurrences, List.filter_eq_self.mpr fun o ho => by
    rw [(Chain.isListed_occurrences ho).1]
    rfl]
  rfl

/-- **The new page has the uses of the old one**, in the same order. -/
theorem map_useKey_edited {t' : Text}
    (ht' : Edit.applyAll t (m.plan o mode).1.edits = t') :
    (((Page.ofText t').survey names).occurrences.filter fun o => !o.isListed).map useKey =
      (((Page.ofText t).survey names).occurrences.filter fun o => !o.isListed).map useKey := by
  have hold : (((Page.ofText t).survey names).occurrences.filter fun o => !o.isListed).map useKey =
      ((Page.ofText t).tokens names).flatMap useKeys := by
    refine map_filter_occurrences _ (fun o ho => by rw [ho]; rfl) (fun tag => ?_)
      (fun n c => map_useKey_chain _) (fun _ => rfl) fun _ => rfl
    rw [List.filter_cons_of_pos (by rw [RefTag.isListed_occurrence]; rfl)]
    rfl
  have hnew : ((saidIn names (Edit.applyAll t (m.plan o mode).1.edits)).filter
      fun y => !y.1.isListed).map (fun y => useKey y.1) =
        ((Page.ofText t).tokens names).flatMap useKeys := by
    refine hm.map_filter_saidIn h hmode hname (fun y hy => by rw [hy]; rfl)
      (fun tag htag occ hn hg hl hc => ?_) (fun c => ?_) (fun _ => rfl) fun _ => rfl
    · simp [useKey, useKeys, hn, hg, hl]
    · rw [Page.tells, map_useKey_tell, map_useKey_chain]
      rfl
  rw [hold, ← hnew, ht', saidIn_eq, map_useKey_tell]

/-! ## 3. Records -/

/-- The text of a tag that refers to `x`, unless it is one of those that become chains. -/
def tagTexts (x : Ref) (chained : Occurrence → Bool) (text : Span → Text) : Token → List Text
  | .tag tag =>
    if isTagOf x tag.occurrence && !chained tag.occurrence then [text tag.span] else []
  | .chain _ | .locator _ | .list _ => []

section Records

variable {t' : Text} (ht' : Edit.applyAll t (m.plan o mode).1.edits = t')
variable (h' : m'.IsFiled mode (Page.ofText t') names)
include ht' h'

omit h' in
/-- The new page gives the body of a reference, cleaned. -/
theorem mem_givenBodies_edited_of_ref? (hr : r ∈ m.records) (hx : r.ref? = some x) {c : Text}
    (hc : r.content? = some c) :
    ⟨some x.1, x.2, cleaned o.normalizeBodies c⟩ ∈ givenBodies names t' := by
  obtain ⟨hn, hg⟩ := Record.ref?_eq_some.mp hx
  have hsome : r.name.isSome := by rw [hn]; rfl
  have htags : r.location = .inline → m.tagsOf r ≠ [] := by
    intro hinline
    have hlocate : (locate mode r r.uses).1 = .inline := by rw [← h.location_eq hr, hinline]
    rw [h.tagsOf_eq hr]
    exact exists_tag_of_locate hsome (by rw [hc]; rfl) hlocate
  have hgiven : r.given? o = some ⟨some x.1, x.2, cleaned o.normalizeBodies c⟩ := by
    rw [Record.given?, hc, hn, hg]
    rfl
  rw [← ht']
  exact hm.mem_edited_of_given h.toAccounts hmode hname h.unmerged hr hsome htags hgiven

/-- A reference has its body after a move, cleaned. -/
theorem content?_edited (hr : r ∈ m.records) (hr' : r' ∈ m'.records) (hx : r.ref? = some x)
    (hx' : r'.ref? = some x) : r'.content? = r.content?.map (cleaned o.normalizeBodies) := by
  obtain ⟨hname', hgroup'⟩ := Record.ref?_eq_some.mp hx'
  obtain ⟨hn, hg⟩ := Record.ref?_eq_some.mp hx
  cases hc' : r'.content? with
  | some b =>
    -- the new page gives it, so it is the body of the record
    have hgiven := mem_givenBodies.mpr (h'.exists_given hr' hc')
    rw [hname', hgroup', ← ht'] at hgiven
    obtain ⟨q, hq, hqx⟩ := hm.gives_of_mem_edited h.toAccounts hmode hname h.unmerged hgiven
    obtain ⟨c, hc, heq⟩ := Option.map_eq_some_iff.mp hqx
    injection heq with hqn hqg hqb
    rw [h.eq_of_ref? hr hq hx (Record.ref?_eq_some.mpr ⟨hqn, hqg⟩), hc, Option.map_some, hqb]
  | none =>
    cases hc : r.content? with
    | none => rfl
    | some c =>
      have hgiven := hm.mem_givenBodies_edited_of_ref? h hmode hname ht' hr hx hc
      obtain ⟨o, ho, hog⟩ := mem_givenBodies.mp hgiven
      have hsome := h'.content?_of_given hr' hx' ho hog
      rw [hc'] at hsome
      cases hsome

/-- The tags of a reference stand in the order in which they have stood, with what the move
leaves of them; those that become chains are gone. -/
theorem map_cut_tagsOf (hr : r ∈ m.records) (hr' : r' ∈ m'.records) (hx : r.ref? = some x)
    (hx' : r'.ref? = some x) : (m'.tagsOf r').map (fun occ => t'.cut occ.span) =
      ((m.tagsOf r).filter fun occ => !m.chainsAt o occ).map fun occ =>
        m.textAt o mode t occ.span := by
  have hold : (((Page.ofText t).survey names).occurrences.filter fun occ =>
      !m.chainsAt o occ && isTagOf x occ).map (fun occ => m.textAt o mode t occ.span) =
        ((Page.ofText t).tokens names).flatMap
          (tagTexts x (m.chainsAt o) (m.textAt o mode t)) := by
    refine map_filter_occurrences _ (fun occ ho => ?_) (fun tag => ?_) (fun n c => ?_)
      (fun _ => rfl) fun _ => rfl
    · rw [isTagOf, ho, Bool.not_true, Bool.and_false, Bool.false_and, Bool.and_false]
    · have hspan : tag.occurrence.span = tag.span := rfl
      cases ho : isTagOf x tag.occurrence <;> cases hc : m.chainsAt o tag.occurrence <;>
        simp [tagTexts, ho, hc, hspan]
    · rw [List.filter_eq_nil_iff.mpr fun occ ho => ?_]
      · rfl
      · simp [isTagOf, Chain.isChained_occurrences ho]
  have hnew : ((saidIn names (Edit.applyAll t (m.plan o mode).1.edits)).filter
      fun y => isTagOf x y.1).map (·.2) = ((Page.ofText t).tokens names).flatMap
        (tagTexts x (m.chainsAt o) (m.textAt o mode t)) := by
    refine hm.map_filter_saidIn h hmode hname (fun y hy => ?_)
      (fun tag htag occ hn hg hl hc => ?_) (fun c => ?_) (fun _ => rfl) fun _ => rfl
    · rw [isTagOf, hy, Bool.not_true, Bool.and_false, Bool.false_and]
    · have hsame : isTagOf x occ = (isTagOf x tag.occurrence && !m.chainsAt o tag.occurrence) := by
        have href : occ.ref? = tag.occurrence.ref? := by
          rw [Occurrence.ref?, hn, hg]
          rfl
        rw [isTagOf, isTagOf, href, hl, hc, RefTag.isListed_occurrence,
          RefTag.isChained_occurrence, Bool.not_false, Bool.and_true, Bool.and_true]
      rw [tagTexts, ← hsame]
      cases ho : isTagOf x occ <;> simp [ho]
    · rw [List.filter_eq_nil_iff.mpr fun y hy => ?_]
      · rfl
      · rw [Page.tells, List.mem_map] at hy
        obtain ⟨occ, ho, rfl⟩ := hy
        simp [isTagOf, Page.tell, Chain.isChained_occurrences ho]
  have htold : (fun y : Told => isTagOf x y.1) ∘ (Page.ofText t').tell = isTagOf x := by
    funext occ
    exact isTagOf_told x occ
  rw [h.tagsOf_of_ref? hr hx, List.filter_filter, hold, ← hnew, ht', saidIn_eq, List.filter_map,
    List.map_map, h'.tagsOf_of_ref? hr' hx', htold]
  rfl

/-- A reference has its place after a move. -/
theorem location_edited (hr : r ∈ m.records) (hr' : r' ∈ m'.records) (hx : r.ref? = some x)
    (hx' : r'.ref? = some x) : r'.location = r.location := by
  have hlength : r'.uses.length = r.uses.length := by
    rw [h'.length_uses hr' hx', h.length_uses hr hx, hm.map_useKey_edited h hmode hname ht']
  have hbody : r'.content?.isSome = r.content?.isSome := by
    rw [hm.content?_edited h hmode hname ht' h' hr hr' hx hx', Option.isSome_map]
  have hcuts := hm.map_cut_tagsOf h hmode hname ht' h' hr hr' hx hx'
  have hnone : ∀ uses : List Occurrence, uses.all (·.isChained) = true ↔
      uses.filter (fun occ => !occ.isChained) = [] := fun uses => by simp
  rw [h'.location_eq hr', h.location_eq hr]
  refine locate_congr hmode hx hx' hbody hlength (fun hall => ?_) fun hsome hinline => ?_
  · rw [hnone, ← h.tagsOf_eq hr] at hall
    rw [hall, List.filter_nil, List.map_nil, List.map_eq_nil_iff] at hcuts
    rw [hnone, ← h'.tagsOf_eq hr', hcuts]
  · -- the first tag holds the body, so it does not become a chain
    have hn : r.name.isSome := by rw [(Record.ref?_eq_some.mp hx).1]; rfl
    obtain ⟨first, rest, hfirst⟩ :=
      List.exists_cons_of_ne_nil (exists_tag_of_locate hn hsome hinline)
    rw [← h.tagsOf_eq hr] at hfirst
    have hstays : m.chainsAt o first = false := by
      rw [h.toAccounts.chainsAt_eq hr (i := 0) (by rw [hfirst]; rfl), becomesChain, hsome,
        h.location_eq hr, hinline]
      simp
    rw [Bool.eq_false_iff, Ne, hnone, ← h'.tagsOf_eq hr']
    intro hnil
    rw [hnil, hfirst, List.filter_cons_of_pos (by rw [hstays]; rfl)] at hcuts
    cases hcuts

end Records

end IsSteady
end Model
end CiteMarkup
