import CiteMarkup.Proofs.Order.Natural
import CiteMarkup.Proofs.Reference.Filed
import CiteMarkup.Proofs.Transform.Coherent
import CiteMarkup.Proofs.Transform.Moving
/-!
# Placed models whose records are files

On a page with plain names and groups, the records of the placed model are files
(`isFiled_place`): a record with a name holds the occurrences of the page with its name and
group, and one without a name holds one occurrence.  So a record is known by what it is referred
to by, and the definitions that are to stand in lists are known by the references that they are
of, in the order in which the page mentions these (`map_ref_listEntries`).
-/

namespace CiteMarkup

/-- The records of the model are the files of the references of the page, placed by the mode. -/
structure Model.IsFiled (m : Model) (mode : Mode) (p : Page) (names : List Text) : Prop
    extends m.Accounts p names where
  unmerged : m.Unmerged
  located : ∀ r ∈ m.records, r.location = (locate mode r (m.usesOf r)).1
  uses_eq : ∀ r ∈ m.records, ∀ x, r.ref? = some x → r.uses =
    (p.survey names).occurrences.filter fun o => o.ref? = some x ∧ o.isListed = false
  listed_eq : ∀ r ∈ m.records, ∀ x, r.ref? = some x → r.listed =
    (p.survey names).occurrences.filter fun o => o.ref? = some x ∧ o.isListed = true
  nameless : ∀ r ∈ m.records, r.name = none →
    ∃ o, o.name = none ∧ o.group = r.group ∧ r.uses ++ r.listed = [o]
  refs : m.records.filterMap (·.ref?) =
    ((p.survey names).occurrences.filterMap (·.ref?)).eraseDups

/-! ## 1. Placing -/

/-- A record without a name holds one occurrence. -/
theorem exists_only_occurrence {t : Text} {names : List Text}
    (hplain : ∀ o ∈ ((Page.ofText t).survey names).occurrences, PlainlyKeyed o.name o.group)
    {r : Record} (hr : r ∈ (Model.ofText t names).records) (hname : r.name = none) :
    ∃ o, o.name = none ∧ o.group = r.group ∧ r.uses ++ r.listed = [o] := by
  have h := accounts_ofText t names
  have hsorted := Page.sortByStart_occurrences (Page.ofText t) names
  have hcoherent := coherent_ofText t names fun o ho => hplain o (hsorted ▸ ho)
  obtain ⟨o, hmem, honame, hgroup⟩ := exists_eponym r (by simpa [Model.ofText] using hr)
  obtain ⟨o', -, hall⟩ := (hcoherent r hr).nameless hname
  have hsame : ∀ q ∈ r.uses ++ r.listed, q = o := fun q hq =>
    (hall q (r.occurrences_perm.mem_iff.mpr hq)).trans (hall o hmem).symm
  have huses : r.uses.Nodup := (List.nodup_flatMap.mp (List.Nodup.of_map _ h.nodup_uses)).1 r hr
  have hlisted : r.listed.Nodup :=
    (List.nodup_flatMap.mp (List.Nodup.of_map _ h.nodup_listed)).1 r hr
  have hnodup : (r.uses ++ r.listed).Nodup := by
    refine List.nodup_append.mpr ⟨huses, hlisted, fun a ha b hb hab => ?_⟩
    have hfalse := (h.mem_survey_of_use hr ha).2
    rw [hab, (h.mem_survey_of_listed hr hb).2] at hfalse
    cases hfalse
  refine ⟨o, honame.trans hname, hgroup, ?_⟩
  exact eq_singleton_of_nodup hnodup (r.occurrences_perm.mem_iff.mp hmem) hsame

/-- **On a page with plain names and groups the records are files.** -/
theorem isFiled_place (mode : Mode) (t : Text) (names : List Text)
    (hplain : ∀ o ∈ ((Page.ofText t).survey names).occurrences, PlainlyKeyed o.name o.group) :
    ((Model.ofText t names).place mode).1.IsFiled mode (Page.ofText t) names := by
  have ho : ∀ o ∈ ((Page.ofText t).survey names).occurrences, o.name ≠ some [] :=
    fun o ho => Page.name_ne_of_mem_survey ho
  have hsorted := Page.sortByStart_occurrences (Page.ofText t) names
  have hrecords : (Model.ofText t names).records =
      recordsFrom 0 [] ((Page.ofText t).survey names).occurrences := by
    rw [Model.ofText, hsorted]
  have h := accounts_ofText t names
  have hu : ((Model.ofText t names).place mode).1.Unmerged :=
    Model.forall_place (fun r hr _ => unmerged_ofText t names r hr) mode
  refine ⟨h.place mode, hu, fun r hr => Model.location_of_mem_place hr (hu r hr), ?_, ?_, ?_, ?_⟩
  · refine Model.forall_place (fun r hr l x hx => ?_) mode
    have hx : r.ref? = some x := hx
    exact uses_of_ref? (r := r) ho hplain (hrecords ▸ hr) hx
  · refine Model.forall_place (fun r hr l x hx => ?_) mode
    have hx : r.ref? = some x := hx
    exact listed_of_ref? (r := r) ho hplain (hrecords ▸ hr) hx
  · exact Model.forall_place (fun r hr l hname => exists_only_occurrence hplain hr hname) mode
  · have hmap : ((Model.ofText t names).place mode).1.records.map (·.ref?) =
        (Model.ofText t names).records.map (·.ref?) := Model.place_map (fun _ _ => rfl) _ mode
    have hfilter : ∀ rs : List Record, rs.filterMap (·.ref?) = (rs.map (·.ref?)).filterMap id :=
      fun rs => by rw [List.filterMap_map]; rfl
    rw [hfilter, hmap, ← hfilter, hrecords]
    exact refs_recordsFrom ho hplain

/-! ## 2. Records and what they hold -/

theorem Occurrence.body?_isSome (o : Occurrence) : o.body?.isSome = (o.isFull || o.isListed) := by
  obtain ⟨_, form, _, _⟩ := o
  cases form <;> rfl

/-- What the definition is one of. -/
def ListEntry.ref (d : ListEntry) : Ref := (d.name.getD [], d.group)

namespace Model.IsFiled

variable {m : Model} {mode : Mode} {p : Page} {names : List Text} {r s : Record} {x : Ref}
variable {o : Occurrence} {d : ListEntry}
variable (h : m.IsFiled mode p names)
include h

/-- A record holds occurrences of its name and its group. -/
theorem of_mem (hr : r ∈ m.records) (ho : o ∈ r.uses ∨ o ∈ r.listed) :
    o.name = r.name ∧ o.group = r.group := by
  cases hx : r.ref? with
  | some x =>
    have hox : o.ref? = some x := by
      rcases ho with ho | ho
      · rw [h.uses_eq r hr x hx] at ho
        exact (of_decide_eq_true (List.mem_filter.mp ho).2).1
      · rw [h.listed_eq r hr x hx] at ho
        exact (of_decide_eq_true (List.mem_filter.mp ho).2).1
    obtain ⟨hname, hgroup⟩ := Occurrence.ref?_eq_some.mp hox
    obtain ⟨hname', hgroup'⟩ := Record.ref?_eq_some.mp hx
    exact ⟨hname.trans hname'.symm, hgroup.trans hgroup'.symm⟩
  | none =>
    have hname : r.name = none := by simpa [Record.ref?] using hx
    obtain ⟨q, hq, hgroup, hall⟩ := h.nameless r hr hname
    have hmem : o ∈ r.uses ++ r.listed := List.mem_append.mpr ho
    rw [hall, List.mem_singleton] at hmem
    rw [hmem]
    exact ⟨hq.trans hname.symm, hgroup⟩

/-- A record without a name holds one occurrence, which is a use or a definition. -/
theorem nil_of_nameless (hr : r ∈ m.records) (hname : r.name = none) :
    r.listed = [] ∨ r.uses = [] := by
  obtain ⟨o, -, -, hall⟩ := h.nameless r hr hname
  rcases List.append_eq_singleton_iff.mp hall with ⟨huses, -⟩ | ⟨-, hlisted⟩
  · exact .inr huses
  · exact .inl hlisted

/-- There is one record for what is referred to. -/
theorem eq_of_ref? (hr : r ∈ m.records) (hs : s ∈ m.records) (hx : r.ref? = some x)
    (hx' : s.ref? = some x) : r = s := by
  have hn : (m.records.filterMap (·.ref?)).Nodup := h.refs ▸ nodup_eraseDups _
  have hpair : m.records.Pairwise fun a b =>
      ∀ x, a.ref? = some x → ∀ y, b.ref? = some y → x ≠ y := List.pairwise_filterMap.mp hn
  have : Std.Symm fun a b : Record => ∀ x, a.ref? = some x → ∀ y, b.ref? = some y → x ≠ y :=
    ⟨fun a b hab x hx y hy heq => hab y hy x hx heq.symm⟩
  by_contra hne
  exact hpair.forall hr hs hne x hx x hx' rfl

theorem mem_refs : x ∈ (p.survey names).occurrences.filterMap (·.ref?) ↔
    ∃ r ∈ m.records, r.ref? = some x := by
  rw [← List.mem_eraseDups, ← h.refs, List.mem_filterMap]

/-- The uses of a record are its own. -/
theorem usesOf_eq (hr : r ∈ m.records) : m.usesOf r = r.uses := by
  have hmerged : m.merged r = [r] := by
    refine eq_singleton_of_nodup ((List.Nodup.of_map _ h.indices).filter _) ?_ fun s hs => ?_
    · rw [merged, List.mem_filter, canonical_self (h.unmerged r hr)]
      exact ⟨hr, decide_eq_true rfl⟩
    · obtain ⟨hs, hindex⟩ := List.mem_filter.mp hs
      rw [canonical_self (h.unmerged s hs)] at hindex
      exact h.eq_of_index_eq hs hr (of_decide_eq_true hindex)
  have hsorted : r.uses.Pairwise fun a b => a.start ≤ b.start := by
    cases hx : r.ref? with
    | some x =>
      rw [h.uses_eq r hr x hx]
      exact (Page.pairwise_occurrences p names).filter _
    | none =>
      have hname : r.name = none := by simpa [Record.ref?] using hx
      obtain ⟨o, -, -, hall⟩ := h.nameless r hr hname
      have hsub : r.uses.Sublist [o] := hall ▸ List.sublist_append_left _ _
      exact (List.pairwise_singleton _ _).sublist hsub
  rw [usesOf, hmerged, List.flatMap_singleton]
  exact sortStable_of_pairwise (hsorted.imp fun hab => decide_eq_true hab)

theorem tagsOf_eq (hr : r ∈ m.records) : m.tagsOf r = r.uses.filter fun o => !o.isChained := by
  rw [tagsOf, h.usesOf_eq hr]

theorem location_eq (hr : r ∈ m.records) : r.location = (locate mode r r.uses).1 := by
  rw [h.located r hr, h.usesOf_eq hr]

/-- The body of a record is one that the page gives under its name and group. -/
theorem exists_given {c : Text} (hr : r ∈ m.records) (hc : r.content? = some c) :
    ∃ o ∈ (p.survey names).occurrences, o.given? = some ⟨r.name, r.group, c⟩ := by
  obtain ⟨o, ho, hbody, hvisible⟩ := Record.exists_of_content? hc
  have hmem : o ∈ r.uses ∨ o ∈ r.listed :=
    ho.imp_left fun ho => (Record.mem_definitions_iff.mp ho).1
  obtain ⟨hname, hgroup⟩ := h.of_mem hr hmem
  refine ⟨o, ?_, ?_⟩
  · exact hmem.elim (fun ho => (h.mem_survey_of_use hr ho).1)
      fun ho => (h.mem_survey_of_listed hr ho).1
  · rw [Occurrence.given?, Occurrence.visibleBody?_eq_some.mpr ⟨hbody, hvisible⟩, hname, hgroup]
    rfl

/-- A record has a body if the page gives one under its name and group. -/
theorem content?_of_given {b : Text} (hr : r ∈ m.records) (hx : r.ref? = some x)
    (ho : o ∈ (p.survey names).occurrences) (hg : o.given? = some ⟨some x.1, x.2, b⟩) :
    r.content?.isSome := by
  obtain ⟨b', hb, heq⟩ := Option.map_eq_some_iff.mp hg
  obtain ⟨hname, hgroup⟩ : o.name = some x.1 ∧ o.group = x.2 := by
    injection heq with hname hgroup
    exact ⟨hname, hgroup⟩
  have hox := Occurrence.ref?_eq_some.mpr ⟨hname, hgroup⟩
  rw [← Option.isNone_eq_false_iff, Bool.eq_false_iff]
  intro hnone
  obtain ⟨hlisted, hdefined⟩ := visibleBody?_of_content? (Option.isNone_iff_eq_none.mp hnone)
  rw [List.any_eq_false] at hlisted hdefined
  have hsome : o.visibleBody?.isSome = true := by rw [hb]; rfl
  cases hl : o.isListed with
  | true =>
    refine hlisted o ?_ hsome
    rw [h.listed_eq r hr x hx]
    exact List.mem_filter.mpr ⟨ho, decide_eq_true ⟨hox, hl⟩⟩
  | false =>
    refine hdefined o (Record.mem_definitions_iff.mpr ⟨?_, ?_⟩) hsome
    · rw [h.uses_eq r hr x hx]
      exact List.mem_filter.mpr ⟨ho, decide_eq_true ⟨hox, hl⟩⟩
    · obtain ⟨hbody, -⟩ := Occurrence.visibleBody?_eq_some.mp hb
      have hany := o.body?_isSome
      rwa [hbody, hl, Bool.or_false, Option.isSome_some, eq_comm] at hany

/-! ## 3. Uses -/

end Model.IsFiled

/-- A use without its place and its form: its name and its group. -/
abbrev UseKey := Option Text × Option Text

/-- The occurrence as a use without its place. -/
def useKey (o : Occurrence) : UseKey := (o.name, o.group)

/-- What the use refers to. -/
def UseKey.ref? (y : UseKey) : Option Ref := y.1.map fun n => (n, y.2)

/-- The occurrence is a tag in the running text that refers to `x`. -/
def isTagOf (x : Ref) (o : Occurrence) : Bool := o.ref? = some x && !o.isListed && !o.isChained

@[simp] theorem isTagOf_told (x : Ref) (o : Occurrence) : isTagOf x o.told = isTagOf x o := by
  rw [isTagOf, isTagOf, Occurrence.isListed_told, Occurrence.isChained_told, Occurrence.ref?_told]

/-- **Where a body stands is known from the number of uses**, from there being a body, and from
there being a tag: one that has stood in the text has a tag still, and uses that have all stood in
chains do so still. -/
theorem locate_congr {mode : Mode} (hmode : mode ≠ .keep) {r r' : Record} {x : Ref}
    (hx : r.ref? = some x) (hx' : r'.ref? = some x)
    (hbody : r'.content?.isSome = r.content?.isSome) {uses uses' : List Occurrence}
    (hlength : uses'.length = uses.length)
    (hchained : uses.all (·.isChained) = true → uses'.all (·.isChained) = true)
    (htagged : r.content?.isSome → (locate mode r uses).1 = .inline →
      uses'.all (·.isChained) = false) :
    (locate mode r' uses').1 = (locate mode r uses).1 := by
  have hwish : mode.wish r' uses'.length = mode.wish r uses.length := by
    rw [hlength]
    cases mode with
    | keep => exact absurd rfl hmode
    | allInline => rfl
    | allListed => rfl
    | threshold n => rfl
  unfold locate at htagged ⊢
  rw [(Record.ref?_eq_some.mp hx).1] at htagged ⊢
  rw [(Record.ref?_eq_some.mp hx').1, hwish, hbody]
  simp only at htagged ⊢
  cases hw : mode.wish r uses.length with
  | listDefined => rfl
  | inline =>
    rw [hw] at htagged
    cases hc : r.content?.isSome with
    | false => rfl
    | true =>
      cases hall : uses.all (·.isChained) with
      | true => rw [hchained hall]; rfl
      | false =>
        rw [hc, hall] at htagged
        rw [htagged rfl rfl]
        rfl

namespace Model.IsFiled

variable {m : Model} {mode : Mode} {p : Page} {names : List Text} {r s : Record} {x : Ref}
variable {o : Occurrence} {d : ListEntry}
variable (h : m.IsFiled mode p names)
include h

/-- The number of uses of a record is known from the uses of the page. -/
theorem length_uses (hr : r ∈ m.records) (hx : r.ref? = some x) :
    r.uses.length = ((((p.survey names).occurrences.filter fun o => !o.isListed).map useKey).filter
      fun y => y.ref? = some x).length := by
  rw [h.uses_eq r hr x hx, List.filter_map, List.filter_filter, List.length_map]
  refine congrArg List.length (List.filter_congr fun o _ => ?_)
  have hkey : decide ((useKey o).ref? = some x) = decide (o.ref? = some x) := rfl
  rw [Function.comp_apply, hkey]
  cases o.isListed <;> simp

/-- The tags of a record are known from those of the page. -/
theorem tagsOf_of_ref? (hr : r ∈ m.records) (hx : r.ref? = some x) :
    m.tagsOf r = (p.survey names).occurrences.filter (isTagOf x) := by
  rw [h.tagsOf_eq hr, h.uses_eq r hr x hx, List.filter_filter]
  refine List.filter_congr fun o _ => ?_
  rw [isTagOf]
  cases o.isListed <;> cases o.isChained <;> simp

/-! ## 4. Definitions for lists -/

omit h in
theorem ref?_of_definition? (hd : r.definition? = some d) (hname : d.name.isSome) :
    r.ref? = some d.ref := by
  obtain ⟨-, c, -, rfl⟩ := definition?_eq_some.mp hd
  obtain ⟨n, hn⟩ := Option.isSome_iff_exists.mp hname
  have hn : r.name = some n := hn
  rw [Record.ref?, ListEntry.ref, hn]
  rfl

/-- **The definitions for lists stand in the order in which the page mentions the references.** -/
theorem map_ref_listEntries (hnamed : ∀ d ∈ m.listEntries, d.name.isSome) :
    m.listEntries.map ListEntry.ref =
      ((p.survey names).occurrences.filterMap (·.ref?)).eraseDups.filter
        fun x => x ∈ m.listEntries.map ListEntry.ref := by
  rw [← h.refs, List.filter_filterMap]
  conv_lhs => rw [listEntries, List.map_filterMap]
  refine List.filterMap_congr fun r hr => ?_
  cases hd : r.definition? with
  | some d =>
    have hmem : d ∈ m.listEntries := List.mem_filterMap.mpr ⟨r, hr, hd⟩
    rw [ref?_of_definition? hd (hnamed d hmem), Option.map_some, Option.filter_some, if_pos]
    exact decide_eq_true (List.mem_map_of_mem hmem)
  | none =>
    cases hx : r.ref? with
    | none => rfl
    | some x =>
      rw [Option.map_none, Option.filter_some, if_neg]
      intro hmem
      obtain ⟨d, hdm, hdx⟩ := List.mem_map.mp (of_decide_eq_true hmem)
      obtain ⟨s, hs, hsd⟩ := List.mem_filterMap.mp hdm
      have hsx := ref?_of_definition? hsd (hnamed d hdm)
      rw [h.eq_of_ref? hs hr (hdx ▸ hsx) hx, hd] at hsd
      cases hsd

end Model.IsFiled
end CiteMarkup
