import CiteMarkup.Proofs.Order.Passages
import CiteMarkup.Proofs.Transform.Again
/-!
# Definitions after a move

A steady page and the page after a move have the same definitions for their lists, cleaned
(`mem_listEntries_again`).  The new page mentions the references in another order, but each list
gathers what it has been left with, in the order in which it stands there (`arranged_again`).
-/

namespace CiteMarkup

/-! ## 1. Definitions on the new page -/

/-- The definition with its body cleaned. -/
def ListEntry.cleaned (normalize : Bool) (d : ListEntry) : ListEntry :=
  { d with body := CiteMarkup.cleaned normalize d.body }

@[simp] theorem ListEntry.group_cleaned (normalize : Bool) (d : ListEntry) :
    (d.cleaned normalize).group = d.group := rfl

namespace Model

variable {m m' : Model} {names : List Text} {t t' w : Text} {o : Options}
variable {r r' : Record} {mode : Mode} {x : Ref} {d d' : ListEntry}

/-- There is one definition of a reference. -/
theorem IsFiled.eq_of_ref_eq (h : m.IsFiled mode (Page.ofText t) names)
    (hnamed : ∀ d ∈ m.listEntries, d.name.isSome) (hd : d ∈ m.listEntries)
    (hd' : d' ∈ m.listEntries) (heq : d'.ref = d.ref) : d' = d := by
  obtain ⟨r, hr, hrd⟩ := List.mem_filterMap.mp hd
  obtain ⟨r', hr', hrd'⟩ := List.mem_filterMap.mp hd'
  have hx := IsFiled.ref?_of_definition? hrd (hnamed d hd)
  have hx' := IsFiled.ref?_of_definition? hrd' (hnamed d' hd')
  obtain rfl := h.eq_of_ref? hr' hr hx' (heq ▸ hx)
  exact Option.some.inj (hrd'.symm.trans hrd)

namespace IsSteady

variable (hm : m.IsSteady names t o) (h : m.IsFiled mode (Page.ofText t) names)
variable (hmode : mode ≠ .keep) (hname : isNameOf names (canonicalName "reflist".toList) = true)
variable (ht' : Edit.applyAll t (m.plan o mode).1.edits = t')
variable (h' : m'.IsFiled mode (Page.ofText t') names)
variable (hnamed : ∀ d ∈ m.listEntries, d.name.isSome)
include hm h hmode hname ht' h'

/-- A reference is defined in a list again if it has been, with its body cleaned. -/
theorem definition?_edited (hr : r ∈ m.records) (hr' : r' ∈ m'.records) (hx : r.ref? = some x)
    (hx' : r'.ref? = some x) :
    r'.definition? = r.definition?.map (ListEntry.cleaned o.normalizeBodies) := by
  obtain ⟨hn, hg⟩ := Record.ref?_eq_some.mp hx
  obtain ⟨hn', hg'⟩ := Record.ref?_eq_some.mp hx'
  rw [Record.definition?, Record.definition?, h'.unmerged r' hr', h.unmerged r hr,
    hm.location_edited h hmode hname ht' h' hr hr' hx hx',
    hm.content?_edited h hmode hname ht' h' hr hr' hx hx', hn, hg, hn', hg']
  simp only [decide_true, Bool.true_and]
  split
  · rw [Option.map_map, Option.map_map]
    rfl
  · rfl

include hnamed

/-- What is to be defined in a list of the new page has a name. -/
theorem named_again (hd' : d' ∈ m'.listEntries) : d'.name.isSome := by
  obtain ⟨r', hr', hrd'⟩ := List.mem_filterMap.mp hd'
  obtain ⟨⟨-, hlocation⟩, b, hb, rfl⟩ := definition?_eq_some.mp hrd'
  cases hn' : r'.name with
  | some n => rfl
  | none =>
    -- without a name it is not used, so it is defined in a list of the page
    have huses : r'.uses = [] := by
      rw [h'.location_eq hr', locate, hn'] at hlocation
      simp only at hlocation
      split at hlocation
      · rename_i hempty
        simpa using (Bool.and_eq_true_iff.mp hempty).1
      · cases hlocation
    obtain ⟨o', ho', -⟩ := Record.exists_of_content? hb
    have hlisted : o' ∈ r'.listed := by
      refine ho'.resolve_left fun hmem => ?_
      have huse := (Record.mem_definitions_iff.mp hmem).1
      rw [huses] at huse
      cases huse
    obtain ⟨hsurvey, hl⟩ := h'.mem_survey_of_listed hr' hlisted
    have hsaid : (Page.ofText t').tell o' ∈ saidIn names t' := by
      rw [saidIn_eq]
      exact List.mem_map_of_mem hsurvey
    obtain ⟨d, hd, heq⟩ := hm.exists_entry_of_said h hmode hname ht' hsaid
      (by simpa [Page.tell] using hl)
    have hdn : o'.name = d.name := congrArg (fun y : Told => y.1.name) heq
    have hsome := hnamed d hd
    rw [← hdn, (h'.of_mem hr' (.inr hlisted)).1, hn'] at hsome
    cases hsome

/-- **The definitions for the lists of the new page** are those for the lists of the old one,
cleaned. -/
theorem mem_listEntries_again :
    d' ∈ m'.listEntries ↔ ∃ d ∈ m.listEntries, d.cleaned o.normalizeBodies = d' := by
  constructor
  · intro hd'
    have hsome := hm.named_again h hmode hname ht' h' hnamed hd'
    obtain ⟨r', hr', hrd'⟩ := List.mem_filterMap.mp hd'
    have hx' := IsFiled.ref?_of_definition? hrd' hsome
    obtain ⟨r, hr, hx⟩ := hm.exists_record_alike h hmode hname ht' h' hr' hx'
    rw [hm.definition?_edited h hmode hname ht' h' hr hr' hx hx'] at hrd'
    obtain ⟨d, hrd, heq⟩ := Option.map_eq_some_iff.mp hrd'
    exact ⟨d, List.mem_filterMap.mpr ⟨r, hr, hrd⟩, heq⟩
  · rintro ⟨d, hd, rfl⟩
    obtain ⟨r, hr, hrd⟩ := List.mem_filterMap.mp hd
    have hx := IsFiled.ref?_of_definition? hrd (hnamed d hd)
    obtain ⟨-, c, hc, rfl⟩ := definition?_eq_some.mp hrd
    -- the new page gives the body under the name, so it has a record of it
    have hgiven := hm.mem_givenBodies_edited_of_ref? h hmode hname ht' hr hx hc
    obtain ⟨o', ho', hgiven'⟩ := mem_givenBodies.mp hgiven
    have hox : o'.ref? = some (ListEntry.ref ⟨r.name, r.group, c⟩) := by
      obtain ⟨b, -, heq⟩ := Option.map_eq_some_iff.mp hgiven'
      injection heq with hn hg
      exact Occurrence.ref?_eq_some.mpr ⟨hn, hg⟩
    obtain ⟨r', hr', hx'⟩ := h'.mem_refs.mp (List.mem_filterMap.mpr ⟨o', ho', hox⟩)
    refine List.mem_filterMap.mpr ⟨r', hr', ?_⟩
    rw [hm.definition?_edited h hmode hname ht' h' hr hr' hx hx', hrd]
    rfl

theorem mem_refs_listEntries : x ∈ m'.listEntries.map ListEntry.ref ↔
    x ∈ m.listEntries.map ListEntry.ref := by
  rw [List.mem_map, List.mem_map]
  constructor
  · rintro ⟨d', hd', rfl⟩
    obtain ⟨d, hd, rfl⟩ := (hm.mem_listEntries_again h hmode hname ht' h' hnamed).mp hd'
    exact ⟨d, hd, rfl⟩
  · rintro ⟨d, hd, rfl⟩
    have hagain := (hm.mem_listEntries_again h hmode hname ht' h' hnamed).mpr ⟨d, hd, rfl⟩
    exact ⟨d.cleaned o.normalizeBodies, hagain, rfl⟩

end IsSteady
end Model

/-! ## 2. What lists gather -/

/-- The order in which the definitions of references are written. -/
def orderOf (sort : Bool) (x y : Ref) : Bool :=
  !sort || (NaturalKey.of x.1).le (NaturalKey.of y.1)

theorem orderOf_total (sort : Bool) (x y : Ref) :
    orderOf sort x y = true ∨ orderOf sort y x = true := by
  cases sort with
  | false => exact .inl rfl
  | true => simpa [orderOf] using NaturalKey.le_total (.of x.1) (.of y.1)

theorem orderOf_trans (sort : Bool) (x y z : Ref) (hxy : orderOf sort x y = true)
    (hyz : orderOf sort y z = true) : orderOf sort x z = true := by
  cases sort with
  | false => rfl
  | true =>
    simp only [orderOf, Bool.not_true, Bool.false_or] at *
    exact NaturalKey.le_trans _ _ _ hxy hyz

theorem map_ref_arrange (style : ListStyle) (own : List ListEntry) :
    (style.arrange own).map ListEntry.ref =
      sortStable (orderOf style.sort) (own.map ListEntry.ref) := by
  obtain ⟨sort, normalize⟩ := style
  cases sort with
  | false =>
    have horder : orderOf false = fun _ _ => true := rfl
    rw [horder, sortStable_true]
    rfl
  | true =>
    have horder : (fun a b : ListEntry => orderOf true a.ref b.ref) = fun a b =>
        (NaturalKey.of (a.name.getD [])).le (NaturalKey.of (b.name.getD [])) := by
      funext a b
      rw [orderOf, Bool.not_true, Bool.false_or]
      rfl
    rw [sortStable_map, horder]
    rfl

/-- The reference is one of the group with a definition for a list. -/
def isDefined (ds : List ListEntry) (g : Option Text) (x : Ref) : Bool :=
  x ∈ ds.map ListEntry.ref && x.2 = g

/-- The references that the list of a group gets, in the order in which they are written. -/
def Model.sharedRefs (m : Model) (style : ListStyle) (g : Option Text) : List Ref :=
  (style.arrange (m.listEntries.filter (·.group = g))).map ListEntry.ref

/-- **A share of the definitions** has the references that the page mentions and that are to be
defined there, in the order of the page. -/
theorem Model.IsFiled.map_ref_share {m : Model} {mode : Mode} {p : Page} {names : List Text}
    (h : m.IsFiled mode p names) (hnamed : ∀ d ∈ m.listEntries, d.name.isSome)
    (g : Option Text) : (m.listEntries.filter (·.group = g)).map ListEntry.ref =
      (((p.survey names).occurrences.filterMap (·.ref?)).filter
        (isDefined m.listEntries g)).eraseDups := by
  have hgroup : (fun x : Ref => decide (x.2 = g)) ∘ ListEntry.ref = fun d => decide (d.group = g) :=
    rfl
  rw [← hgroup, ← List.filter_map, h.map_ref_listEntries hnamed, List.filter_filter,
    ← filter_eraseDups]
  refine List.filter_congr fun x _ => ?_
  rw [isDefined, Bool.and_comm]

/-! ## 3. Passages -/

/-- The references that are told of. -/
def refsTold (ys : List Told) : List Ref := ys.filterMap (·.1.ref?)

theorem refsTold_flatMap {α : Type} (f : α → List Told) (l : List α) :
    refsTold (l.flatMap f) = l.flatMap fun a => refsTold (f a) := by
  rw [refsTold, List.filterMap_flatMap]
  rfl

theorem refsTold_map_told (normalize : Bool) (ds : List ListEntry)
    (hnamed : ∀ d ∈ ds, d.name.isSome) :
    refsTold (ds.map (·.told normalize)) = ds.map ListEntry.ref := by
  rw [refsTold, List.filterMap_map, ← List.filterMap_eq_map]
  refine List.filterMap_congr fun d hd => ?_
  obtain ⟨n, hn⟩ := Option.isSome_iff_exists.mp (hnamed d hd)
  simp [ListEntry.told, ListEntry.ref, Occurrence.ref?, hn]

theorem refsTold_tells (p : Page) (os : List Occurrence) :
    refsTold (os.map p.tell) = os.filterMap (·.ref?) := by
  rw [refsTold, List.filterMap_map]
  refine List.filterMap_congr fun o _ => ?_
  simp [Page.tell]

/-- What a mark of the page mentions. -/
def Page.passage (p : Page) : Token → Passage Ref (Option Text)
  | .list l => .defines l.group? (refsTold (p.tells (.list l)))
  | .tag tag => .cites (refsTold (p.tells (.tag tag)))
  | .chain c => .cites (refsTold (p.tells (.chain c)))
  | .locator c => .cites (refsTold (p.tells (.locator c)))

theorem Page.things_passage (p : Page) (k : Token) :
    (p.passage k).things = refsTold (p.tells k) := by
  cases k <;> rfl

/-- What a page mentions, with room for the lists that are added to it. -/
def Model.passages (m : Model) (p : Page) (names : List Text) :
    List (Passage Ref (Option Text)) :=
  (p.tokens names).map p.passage ++
    ((newShares m.listEntries (m.lists.map (·.group?))).map (·.1)).map fun g => .defines g []

theorem mentions_passages (m : Model) (p : Page) (names : List Text) :
    mentions (m.passages p names) = (p.survey names).occurrences.filterMap (·.ref?) := by
  have hnew : ∀ gs : List (Option Text),
      mentions (gs.map fun g => (Passage.defines g [] : Passage Ref (Option Text))) = [] := by
    intro gs
    rw [mentions, List.flatMap_map]
    exact List.flatMap_eq_nil_iff.mpr fun g _ => rfl
  rw [Model.passages, mentions_append, hnew, List.append_nil, mentions, List.flatMap_map,
    ← refsTold_tells p, Page.told_occurrences, refsTold_flatMap]
  exact List.flatMap_congr fun k _ => p.things_passage k

theorem filterMap_group?_passages (p : Page) : ∀ ks : List Token,
    (ks.map p.passage).filterMap (·.group?) = (listsAmong ks).map (·.group?)
  | [] => rfl
  | k :: ks => by
    have ih := filterMap_group?_passages p ks
    cases k with
    | list l => rw [List.map_cons, List.filterMap_cons, ih]; rfl
    | tag tag => rw [List.map_cons, List.filterMap_cons, ih]; rfl
    | chain c => rw [List.map_cons, List.filterMap_cons, ih]; rfl
    | locator c => rw [List.map_cons, List.filterMap_cons, ih]; rfl

/-- Marks whose lists are written anew mention what is left at each of them. -/
theorem mentions_rewritten_marks {p : Page} {names : List Text} {entries : List ListEntry}
    {F : List ListEntry → List Ref} (hnil : F [] = []) {text : Span → Text} :
    ∀ {ks : List Token} {served : List (Option Text)},
      (∀ k ∈ ks, (∀ l, k ≠ .list l) →
        refsTold (saidIn names (text k.span)) = refsTold (p.tells k)) →
      (∀ share ∈ listShares entries served (listsAmong ks),
        refsTold (saidIn names (text share.1.span)) = F share.2) →
      mentions (rewritten (fun g => F (entries.filter (·.group = g))) served (ks.map p.passage)) =
        ks.flatMap fun k => refsTold (saidIn names (text k.span))
  | [], _, _, _ => rfl
  | k :: ks, served, hother, hlist => by
    have hrest := fun l hl => hother l (List.mem_cons_of_mem _ hl)
    have hcites : (∀ l, k ≠ .list l) → p.passage k = .cites (refsTold (p.tells k)) →
        (∀ share ∈ listShares entries served (listsAmong ks),
          refsTold (saidIn names (text share.1.span)) = F share.2) →
        mentions (rewritten (fun g => F (entries.filter (·.group = g))) served
          ((k :: ks).map p.passage)) =
            (k :: ks).flatMap fun k => refsTold (saidIn names (text k.span)) := by
      intro hne hpassage hlist
      rw [List.map_cons, hpassage, rewritten, mentions_cons, List.flatMap_cons,
        mentions_rewritten_marks hnil hrest hlist, hother k List.mem_cons_self hne]
      rfl
    cases k with
    | tag tag => exact hcites (by simp) rfl hlist
    | chain c => exact hcites (by simp) rfl hlist
    | locator c => exact hcites (by simp) rfl hlist
    | list l =>
      rw [listsAmong, listShares] at hlist
      obtain ⟨hfirst, hlists⟩ := List.forall_mem_cons.mp hlist
      rw [List.map_cons, Page.passage, rewritten, mentions_cons, List.flatMap_cons,
        mentions_rewritten_marks hnil hrest hlists, Token.span_list, hfirst]
      by_cases hserved : l.group? ∈ served
      · rw [if_pos hserved, if_pos (List.contains_iff_mem.mpr hserved), hnil]
        rfl
      · rw [if_neg hserved, if_neg (mt List.contains_iff_mem.mp hserved)]
        rfl

/-! ## 4. Gathering again -/

theorem eq_map_of_map_eq {α β : Type} {f : α → β} {change : α → α} : ∀ {l l' : List α},
    l'.map f = l.map f → (∀ a ∈ l', ∀ b ∈ l, f a = f b → a = change b) → l' = l.map change
  | [], [], _, _ => rfl
  | b :: l, a :: l', h, hchange => by
    obtain ⟨hab, hl⟩ := List.cons.inj h
    rw [List.map_cons, hchange a List.mem_cons_self b List.mem_cons_self hab,
      eq_map_of_map_eq hl fun x hx y hy =>
        hchange x (List.mem_cons_of_mem _ hx) y (List.mem_cons_of_mem _ hy)]

namespace Model.IsSteady

variable {m m' : Model} {names : List Text} {t t' w : Text} {o : Options}
variable {r r' : Record} {mode : Mode} {x : Ref} {d d' : ListEntry} {g : Option Text}
variable (hm : m.IsSteady names t o) (h : m.IsFiled mode (Page.ofText t) names)

include hm h

omit h in
/-- A definition is written as it is when its body is cleaned already. -/
theorem text_cleaned (hd : d ∈ m.listEntries) :
    (d.cleaned o.normalizeBodies).text o.normalizeBodies = d.text o.normalizeBodies := by
  obtain ⟨r, hr, hc, -, -⟩ := IsMovable.exists_record_of_entry hd
  rw [ListEntry.text, ListEntry.text, ListEntry.cleaned, fullTag, fullTag,
    hm.cleaned_cleaned hr hc]

/-- The lists of the page define references of their groups. -/
theorem keepsApart (g : Option Text) :
    KeepsApart (isDefined m.listEntries) g (m.passages (Page.ofText t) names) := by
  intro p hp f hf hne x hx
  rw [passages, List.mem_append, List.mem_map, List.mem_map] at hp
  rcases hp with ⟨k, hk, rfl⟩ | ⟨f', -, rfl⟩
  · cases k with
    | list l =>
      obtain rfl : l.group? = f := Option.some.inj hf
      rw [Page.things_passage, ← Page.told_listedIn, refsTold_tells] at hx
      obtain ⟨occ, ho, hox⟩ := List.mem_filterMap.mp hx
      have hgroup := hm.own l (h.mem_lists.mpr hk) occ ho
      rw [(Occurrence.ref?_eq_some.mp hox).2] at hgroup
      rw [isDefined, hgroup, decide_eq_false hne, Bool.and_false]
    | tag tag => cases hf
    | chain c => cases hf
    | locator c => cases hf
  · cases hx

variable (hmode : mode ≠ .keep) (hname : isNameOf names (canonicalName "reflist".toList) = true)
variable (ht' : Edit.applyAll t (m.plan o mode).1.edits = t')
include hmode hname ht'

omit ht' in
/-- A mark other than a list mentions what it has mentioned. -/
theorem refsTold_left {k : Token} (hk : k ∈ (Page.ofText t).tokens names)
    (hlist : ∀ l, k ≠ .list l) :
    refsTold (saidIn names (m.textAt o mode t k.span)) =
      refsTold ((Page.ofText t).tells k) := by
  cases k with
  | tag tag =>
    obtain ⟨occ, hsaid, hn, hg, -⟩ := hm.said_tag h hmode hname hk
    have href : occ.ref? = tag.occurrence.ref? := by rw [Occurrence.ref?, hn, hg]; rfl
    have htells : refsTold ((Page.ofText t).tells (.tag tag)) =
        [tag.occurrence].filterMap (·.ref?) := refsTold_tells _ [tag.occurrence]
    rw [Token.span_tag, hsaid, htells, refsTold, List.filterMap_cons, href]
    rfl
  | chain c => rw [hm.said_other h hmode hname hk (by simp) (by simp)]
  | locator c => rw [hm.said_other h hmode hname hk (by simp) (by simp)]
  | list l => exact absurd rfl (hlist l)

/-- **The new page mentions** what the old one does, with the lists written anew. -/
theorem mentions_again :
    mentions (rewritten (m.sharedRefs o.listStyle) [] (m.passages (Page.ofText t) names)) =
      ((Page.ofText t').survey names).occurrences.filterMap (·.ref?) := by
  have hlists : listsAmong ((Page.ofText t).tokens names) = m.lists := by
    rw [h.lists_eq, Page.survey_eq]
  have harranged : ∀ {ds : List ListEntry}, (∀ d ∈ ds, d ∈ m.listEntries) →
      refsTold ((o.listStyle.arrange ds).map (·.told o.normalizeBodies)) =
        (o.listStyle.arrange ds).map ListEntry.ref := fun hds =>
    refsTold_map_told _ _ fun d hd => hm.named d (hds d (mem_arrange.mp hd))
  have hmarks : mentions (rewritten (m.sharedRefs o.listStyle) []
      (((Page.ofText t).tokens names).map (Page.ofText t).passage)) =
      ((Page.ofText t).tokens names).flatMap fun k =>
        refsTold (saidIn names (m.textAt o mode t k.span)) := by
    refine mentions_rewritten_marks (F := fun own =>
      (o.listStyle.arrange own).map ListEntry.ref) ?_
      (fun k hk hlist => hm.refsTold_left h hmode hname hk hlist) fun share hs => ?_
    · rw [arrange_eq_nil.mpr rfl]
      rfl
    · rw [hlists] at hs
      rw [hm.said_list h hmode hname hs,
        harranged fun d hd => ((mem_of_mem_listShares hs).2 d hd).1]
  have hgroups : (((Page.ofText t).tokens names).map (Page.ofText t).passage).filterMap
      (·.group?) = m.lists.map (·.group?) := by
    rw [filterMap_group?_passages, hlists]
  rw [passages, rewritten_append, mentions_append, hmarks, hgroups, List.nil_append,
    rewritten_new (nodup_newShares _ _) fun _ hg => not_mem_of_mem_newShares hg, ← ht',
    ← refsTold_tells (Page.ofText _), ← saidIn_eq, hm.saidIn_edited h hmode hname, refsTold,
    List.filterMap_append, ← refsTold, ← refsTold, refsTold_flatMap, refsTold_flatMap]
  -- what is left at the marks agrees, and so does what is added
  refine congrArg _ ?_
  rw [mentions, List.flatMap_map, List.flatMap_map]
  refine List.flatMap_congr fun share hs => ?_
  rw [hm.said_newList hname hs, harranged fun d hd => ((mem_of_mem_newShares hs).2.2 d hd).1,
    snd_of_mem_newShares hs]
  rfl

variable (h' : m'.IsFiled mode (Page.ofText t') names)
include h'

/-- The list of a group gets definitions of the same references again, in the same order. -/
theorem sharedRefs_again
    (hg : g ∈ m.lists.map (·.group?) ++
      (newShares m.listEntries (m.lists.map (·.group?))).map (·.1)) :
    m'.sharedRefs o.listStyle g = m.sharedRefs o.listStyle g := by
  have hnamed' : ∀ d' ∈ m'.listEntries, d'.name.isSome := fun d' hd' =>
    hm.named_again h hmode hname ht' h' hm.named hd'
  have hsame : isDefined m'.listEntries = isDefined m.listEntries := by
    funext f x
    rw [isDefined, isDefined,
      decide_eq_decide.mpr (hm.mem_refs_listEntries h hmode hname ht' h' hm.named)]
  have hgathered : gathered (orderOf o.listStyle.sort) (isDefined m.listEntries)
      (m.passages (Page.ofText t) names) = m.sharedRefs o.listStyle := by
    funext f
    rw [gathered, mentions_passages, sharedRefs, map_ref_arrange, h.map_ref_share hm.named]
  have happart : ∀ f f' x, isDefined m.listEntries f x = true →
      isDefined m.listEntries f' x = true → f = f' := by
    intro f f' x hf hf'
    have hof : ∀ {f}, isDefined m.listEntries f x = true → x.2 = f := fun hf =>
      of_decide_eq_true (Bool.and_eq_true_iff.mp hf).2
    exact (hof hf).symm.trans (hof hf')
  have hgroup : ∃ p ∈ m.passages (Page.ofText t) names, p.group? = some g := by
    have hall : (m.passages (Page.ofText t) names).filterMap (·.group?) =
        m.lists.map (·.group?) ++
          (newShares m.listEntries (m.lists.map (·.group?))).map (·.1) := by
      rw [passages, List.filterMap_append, filterMap_group?_passages, h.lists_eq, Page.survey_eq,
        List.filterMap_map]
      exact congrArg _ (List.filterMap_some)
    exact List.mem_filterMap.mp (hall ▸ hg)
  -- gathering from the new page is gathering from the passages with the lists written anew
  have hagain := gathered_again (orderOf_total o.listStyle.sort) (orderOf_trans _) happart
    (hm.keepsApart h g) hgroup
  rw [hgathered, gathered, hm.mentions_again h hmode hname ht', ← hsame,
    ← h'.map_ref_share hnamed', ← map_ref_arrange] at hagain
  exact hagain

/-- **The list of a group gets its definitions again**, cleaned. -/
theorem arranged_again
    (hg : g ∈ m.lists.map (·.group?) ++
      (newShares m.listEntries (m.lists.map (·.group?))).map (·.1)) :
    o.listStyle.arrange (m'.listEntries.filter (·.group = g)) =
      (o.listStyle.arrange (m.listEntries.filter (·.group = g))).map
        (ListEntry.cleaned o.normalizeBodies) := by
  refine eq_map_of_map_eq (hm.sharedRefs_again h hmode hname ht' h' hg)
    fun d' hd' d hd heq => ?_
  have hd' := (List.mem_filter.mp (mem_arrange.mp hd')).1
  have hd := (List.mem_filter.mp (mem_arrange.mp hd)).1
  obtain ⟨e, he, rfl⟩ := (hm.mem_listEntries_again h hmode hname ht' h' hm.named).mp hd'
  rw [h.eq_of_ref_eq hm.named hd he heq]

end Model.IsSteady
end CiteMarkup
