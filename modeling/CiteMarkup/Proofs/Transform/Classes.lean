import CiteMarkup.Proofs.Transform.Conserving
import CiteMarkup.Proofs.Transform.Keeping
import CiteMarkup.Proofs.Transform.Lists
import Mathlib.Data.List.Find
/-!
# Deduplication computes the classes of references with the same content

Two references have the same content if both have a name, their groups agree, and both have bodies
that agree up to blanks (`Record.SameContent`).  After deduplication each record points at the first
record of its class (`classes_of_content`), and the classes share all uses out among themselves.
-/

namespace CiteMarkup

/-! ## 1. Records that are alike -/

/-- Both references have a name, they have one group, and their bodies agree up to blanks. -/
def Record.SameContent (r s : Record) : Prop :=
  r.name.isSome ∧ s.name.isSome ∧ r.group = s.group ∧
    ∃ b c, r.content? = some b ∧ s.content? = some c ∧ Text.squeeze b = Text.squeeze c

theorem Record.likeness?_eq_some {r : Record} {l : Likeness} : r.likeness? = some l ↔
    r.name.isSome ∧ r.group = l.1 ∧ ∃ b, r.content? = some b ∧ Text.squeeze b = l.2 := by
  obtain ⟨g, u⟩ := l
  unfold likeness?
  cases r.name with
  | none => simp
  | some n =>
    simp only [Option.isSome_some, true_and, Option.map_eq_some_iff, Prod.mk.injEq]
    constructor
    · rintro ⟨b, hb, hg, hu⟩
      exact ⟨hg, b, hb, hu⟩
    · rintro ⟨hg, b, hb, hu⟩
      exact ⟨b, hb, hg, hu⟩

/-- Records have the same content if they have one likeness. -/
theorem Record.sameContent_iff {r s : Record} :
    r.SameContent s ↔ r.likeness?.isSome ∧ r.likeness? = s.likeness? := by
  constructor
  · rintro ⟨hr, hs, hgroup, b, c, hb, hc, hbc⟩
    have hrl : r.likeness? = some (r.group, Text.squeeze b) :=
      likeness?_eq_some.mpr ⟨hr, rfl, b, hb, rfl⟩
    have hsl : s.likeness? = some (r.group, Text.squeeze b) :=
      likeness?_eq_some.mpr ⟨hs, hgroup.symm, c, hc, hbc.symm⟩
    rw [hrl, hsl]
    exact ⟨rfl, rfl⟩
  · rintro ⟨hsome, heq⟩
    obtain ⟨l, hl⟩ := Option.isSome_iff_exists.mp hsome
    obtain ⟨hr, hrg, b, hb, hbl⟩ := likeness?_eq_some.mp hl
    obtain ⟨hs, hsg, c, hc, hcl⟩ := likeness?_eq_some.mp (heq ▸ hl)
    exact ⟨hr, hs, hrg.trans hsg.symm, b, c, hb, hc, hbl.trans hcl.symm⟩

/-! ## 2. The head of a class -/

section Heads

variable {records : List Record} {r s : Record}

/-- The first record that is like `r`, or `r` itself if it is like none. -/
def headOf (records : List Record) (r : Record) : Record := (leader? records r).getD r

theorem headOf_of_unlike (h : r.likeness? = none) : headOf records r = r := by
  rw [headOf, leader?, h]
  rfl

/-- A record that is like some has a head: the first one that is like it. -/
theorem leader?_isSome (hr : r ∈ records) (h : r.likeness?.isSome) :
    (leader? records r).isSome = true := by
  obtain ⟨l, hl⟩ := Option.isSome_iff_exists.mp h
  rw [leader?, hl, Option.bind_some, List.find?_isSome]
  exact ⟨r, hr, by simp [hl]⟩

theorem leader?_eq_headOf (hr : r ∈ records) (h : r.likeness?.isSome) :
    leader? records r = some (headOf records r) := by
  obtain ⟨s, hs⟩ := Option.isSome_iff_exists.mp (leader?_isSome hr h)
  rw [headOf, hs]
  rfl

theorem headOf_mem (hr : r ∈ records) : headOf records r ∈ records := by
  cases hl : r.likeness? with
  | none => rwa [headOf_of_unlike hl]
  | some l =>
    have hsome : r.likeness?.isSome := by rw [hl]; rfl
    exact (likeness?_of_leader? (leader?_eq_headOf hr hsome)).1

theorem likeness?_headOf (hr : r ∈ records) : (headOf records r).likeness? = r.likeness? := by
  cases hl : r.likeness? with
  | none => rw [headOf_of_unlike hl, hl]
  | some l =>
    have hsome : r.likeness?.isSome := by rw [hl]; rfl
    rw [(likeness?_of_leader? (leader?_eq_headOf hr hsome)).2.1, hl]

/-- The head of a head is itself. -/
theorem headOf_headOf (hr : r ∈ records) :
    headOf records (headOf records r) = headOf records r := by
  cases hl : r.likeness? with
  | none => rw [headOf_of_unlike hl, headOf_of_unlike hl]
  | some l =>
    have hsome : r.likeness?.isSome := by rw [hl]; rfl
    obtain ⟨-, -, hself⟩ := likeness?_of_leader? (leader?_eq_headOf hr hsome)
    rw [headOf, hself]
    rfl

/-- **Records have one head exactly if they have the same content**, or are one record. -/
theorem headOf_eq_iff (hr : r ∈ records) (hs : s ∈ records) :
    headOf records r = headOf records s ↔ r = s ∨ r.SameContent s := by
  rw [Record.sameContent_iff]
  constructor
  · intro heq
    have hlike : r.likeness? = s.likeness? := by
      rw [← likeness?_headOf hr, ← likeness?_headOf hs, heq]
    cases hl : r.likeness? with
    | none =>
      rw [headOf_of_unlike hl, headOf_of_unlike (hlike ▸ hl)] at heq
      exact .inl heq
    | some l => exact .inr ⟨rfl, hl ▸ hlike⟩
  · rintro (rfl | ⟨hsome, heq⟩)
    · rfl
    · have hleader : leader? records r = leader? records s := by rw [leader?, leader?, heq]
      rw [leader?_eq_headOf hr hsome, leader?_eq_headOf hs (heq ▸ hsome)] at hleader
      exact Option.some.inj hleader

/-- A record with another head than itself has a name, and the head has one in its group. -/
theorem names_of_headOf_ne (hr : r ∈ records) (hne : (headOf records r).index ≠ r.index) :
    ∃ old new, r.name = some old ∧ (headOf records r).name = some new ∧
      r.group = (headOf records r).group := by
  cases hl : r.likeness? with
  | none => exact absurd (congrArg Record.index (headOf_of_unlike hl)) hne
  | some l =>
    obtain ⟨hname, hgroup, -⟩ := Record.likeness?_eq_some.mp hl
    obtain ⟨hhead, hgroup', -⟩ :=
      Record.likeness?_eq_some.mp ((likeness?_headOf hr).trans hl)
    obtain ⟨old, hold⟩ := Option.isSome_iff_exists.mp hname
    obtain ⟨new, hnew⟩ := Option.isSome_iff_exists.mp hhead
    exact ⟨old, new, hold, hnew, hgroup.trans hgroup'.symm⟩

/-- The head of a class is the first record in it. -/
theorem find?_headOf (hr : r ∈ records) :
    records.find? (fun s => headOf records s = headOf records r) = some (headOf records r) := by
  cases hl : r.likeness? with
  | none =>
    rw [headOf_of_unlike hl]
    -- no other record has a record without content for its head
    have honly : ∀ s ∈ records, decide (headOf records s = r) = decide (s = r) := by
      intro s hs
      refine decide_eq_decide.mpr ⟨fun heq => ?_, ?_⟩
      · have hunlike : s.likeness? = none := by rw [← likeness?_headOf hs, heq, hl]
        rwa [headOf_of_unlike hunlike] at heq
      · rintro rfl
        exact headOf_of_unlike hl
    rw [List.find?_congr honly]
    have hfound : (records.find? fun s => decide (s = r)).isSome = true :=
      List.find?_isSome.mpr ⟨r, hr, by simp⟩
    obtain ⟨s, hs⟩ := Option.isSome_iff_exists.mp hfound
    have heq : s = r := by simpa using List.find?_some hs
    rw [hs, heq]
  | some l =>
    have hsome : r.likeness?.isSome := by rw [hl]; rfl
    have halike : ∀ s ∈ records, decide (headOf records s = headOf records r) =
        decide (s.likeness? = some l) := by
      intro s hs
      refine decide_eq_decide.mpr ?_
      rw [eq_comm, headOf_eq_iff hr hs, Record.sameContent_iff, hl]
      constructor
      · rintro (rfl | ⟨-, heq⟩)
        · exact hl
        · exact heq.symm
      · exact fun heq => .inr ⟨rfl, heq.symm⟩
    have hleader := leader?_eq_headOf hr hsome
    rw [leader?, hl, Option.bind_some] at hleader
    rw [List.find?_congr halike]
    exact hleader

theorem canonical_pointed (records : List Record) (r : Record) :
    (r.pointed records).canonical = (headOf records r).index := by
  unfold Record.pointed headOf
  cases leader? records r <;> rfl

end Heads

/-! ## 3. What is reported -/

/-- The change that is reported of a record: it points at the head of its class now. -/
def Record.dedupeChange? (records : List Record) (r : Record) : Option DedupeChange :=
  if (headOf records r).index = r.index then none
  else some ⟨r.name.getD [], (headOf records r).name.getD []⟩

theorem dedupeFrom_changes : ∀ rs before : List Record, ((before ++ rs).map (·.index)).Nodup →
    (dedupeFrom (before.map fun r => (r, r.likeness?)) rs).map (·.2) =
      rs.map (Record.dedupeChange? (before ++ rs))
  | [], before, _ => rfl
  | r :: rs, before, hn => by
    have hshift : before ++ r :: rs = before ++ [r] ++ rs := by simp
    have htail := dedupeFrom_changes rs (before ++ [r]) (hshift ▸ hn)
    rw [List.map_append, List.map_singleton] at htail
    -- a record that comes before has another number
    have hfresh : ∀ s ∈ before, s.index ≠ r.index := by
      intro s hs
      rw [List.map_append, List.map_cons, List.nodup_append] at hn
      exact hn.2.2 s.index (List.mem_map_of_mem hs) r.index List.mem_cons_self
    simp only [dedupeFrom, List.map_cons, htail, hshift, List.cons.injEq, and_true, twin?_eq]
    unfold Record.dedupeChange? headOf leader?
    cases hl : r.likeness? with
    | none => simp
    | some l =>
      simp only [Option.bind_some, List.find?_append]
      cases hf : before.find? fun s => s.likeness? = some l with
      | none => simp [hl]
      | some s => simp [hfresh s (List.mem_of_find?_eq_some hf)]

theorem filterMap_unless {α β : Type} (skip : α → Bool) (f : α → β) (l : List α) :
    l.filterMap (fun x => if skip x then none else some (f x)) =
      (l.filter fun x => !skip x).map f := by
  induction l with
  | nil => rfl
  | cons x l ih => cases hx : skip x <;> simp [hx, ih]

/-- The changes are those of the records, in their order. -/
theorem dedupe_changes {m : Model} (hn : (m.records.map (·.index)).Nodup) :
    m.dedupe.2 = m.records.filterMap (Record.dedupeChange? m.records) := by
  have hchanges := dedupeFrom_changes m.records [] hn
  have hmap : m.dedupe.2 = ((dedupeFrom [] m.records).map (·.2)).filterMap id := by
    rw [List.filterMap_map]
    rfl
  rw [hmap]
  refine (congrArg _ hchanges).trans ?_
  rw [List.filterMap_map]
  rfl

/-! ## 4. The classes of a model -/

/-- The model `d` has the records of `m`, pointed at the heads of their classes. -/
structure Model.Classed (m d : Model) (changes : List DedupeChange) : Prop where
  /-- Only the pointers differ. -/
  records : d.records.map (fun r => { r with canonical := r.index }) = m.records
  /-- Records are in one class exactly if they have the same content. -/
  classes : ∀ r ∈ d.records, ∀ s ∈ d.records,
    d.canonical r = d.canonical s ↔ r = s ∨ r.SameContent s
  /-- What stands for a class is its first record, in the order of the numbers, -/
  first : ∀ r ∈ d.records,
    d.records.find? (fun s => d.canonical s = d.canonical r) = some (d.canonical r)
  arena : (d.records.map (·.index)).Pairwise (· < ·)
  /-- and is reached in one step at most. -/
  oneStep : ∀ r ∈ d.records, r.canonical = (d.canonical r).index ∧
    (d.canonical r).canonical = (d.canonical r).index
  /-- A record without a name is alone in its class. -/
  unnamed : ∀ r ∈ d.records, ∀ s ∈ d.records, r.name = none →
    d.canonical r = d.canonical s → r = s
  /-- Each record that points at another one is reported, from its name to another. -/
  reported : changes.map (fun c => (some c.old, some c.new)) =
    (d.records.filter fun r => r.canonical ≠ r.index).map fun r => (r.name, (d.canonical r).name)
  changed : ∀ c ∈ changes, c.old ≠ c.new
  /-- The classes share the uses of the model out among themselves, -/
  uses : ((d.records.filter fun r => r.canonical = r.index).flatMap d.usesOf).Perm
    (m.records.flatMap (·.uses))
  usesOnce : ((d.records.filter fun r => r.canonical = r.index).flatMap d.usesOf).Nodup
  /-- each in the order of the page. -/
  order : ∀ r, (d.usesOf r).Pairwise fun o o' => o.start ≤ o'.start

section Model

variable {m : Model} {p : Page} {names : List Text} {r s : Record}

theorem pointed_mem (hu : m.Unmerged) (hr : r ∈ m.records) :
    r.pointed m.records ∈ m.dedupe.1.records := by
  rw [dedupe_records m hu]
  exact List.mem_map_of_mem hr

theorem exists_pointed (hu : m.Unmerged) (hr : r ∈ m.dedupe.1.records) :
    ∃ s ∈ m.records, r = s.pointed m.records := by
  rw [dedupe_records m hu] at hr
  obtain ⟨s, hs, rfl⟩ := List.mem_map.mp hr
  exact ⟨s, hs, rfl⟩

/-- A record that has been pointed is known by the record it was. -/
theorem pointed_eq_iff (h : m.Accounts p names) (hr : r ∈ m.records) (hs : s ∈ m.records) :
    r.pointed m.records = s.pointed m.records ↔ r = s := by
  constructor
  · intro heq
    have hindex : (r.pointed m.records).index = (s.pointed m.records).index := by rw [heq]
    exact h.eq_of_index_eq hr hs hindex
  · rintro rfl
    rfl

/-- What stands for a record after deduplication is the head of its class. -/
theorem canonical_dedupe (h : m.Accounts p names) (hu : m.Unmerged) (hr : r ∈ m.records) :
    m.dedupe.1.canonical (r.pointed m.records) = (headOf m.records r).pointed m.records := by
  refine (h.dedupe hu).canonical_of_points (pointed_mem hu hr) (pointed_mem hu (headOf_mem hr))
    ?_ ?_
  · rw [canonical_pointed, headOf_headOf hr]
    rfl
  · rw [canonical_pointed]
    rfl

/-- The records of a class are those that have its head for theirs. -/
theorem canonical_eq_iff (h : m.Accounts p names) (hu : m.Unmerged) (hr : r ∈ m.records)
    (hs : s ∈ m.records) :
    m.dedupe.1.canonical (r.pointed m.records) = m.dedupe.1.canonical (s.pointed m.records) ↔
      headOf m.records r = headOf m.records s := by
  rw [canonical_dedupe h hu hr, canonical_dedupe h hu hs]
  exact pointed_eq_iff h (headOf_mem hr) (headOf_mem hs)

theorem find?_canonical (h : m.Accounts p names) (hu : m.Unmerged) (hr : r ∈ m.records) :
    m.dedupe.1.records.find?
        (fun s => m.dedupe.1.canonical s = m.dedupe.1.canonical (r.pointed m.records)) =
      some (m.dedupe.1.canonical (r.pointed m.records)) := by
  have hclass : ∀ s ∈ m.records,
      decide (m.dedupe.1.canonical (s.pointed m.records) =
          m.dedupe.1.canonical (r.pointed m.records)) =
        decide (headOf m.records s = headOf m.records r) := by
    intro s hs
    exact decide_eq_decide.mpr (canonical_eq_iff h hu hs hr)
  have hcomp : m.records.find? ((fun s => decide (m.dedupe.1.canonical s =
      m.dedupe.1.canonical (r.pointed m.records))) ∘ Record.pointed m.records) =
        some (headOf m.records r) :=
    (List.find?_congr hclass).trans (find?_headOf hr)
  rw [dedupe_records m hu, List.find?_map, hcomp, Option.map_some, canonical_dedupe h hu hr]

/-- What stands for a record is a record of the model that stands for itself. -/
theorem canonical_head (h : m.Accounts p names) (hs : m.Settled) (hr : r ∈ m.records) :
    m.canonical r ∈ m.records.filter fun s => s.canonical = s.index := by
  rcases hs r hr with hself | ⟨s, hsm, hself, hpoint, -, -⟩
  · rw [Model.canonical_self hself]
    exact List.mem_filter.mpr ⟨hr, decide_eq_true hself⟩
  · rw [h.canonical_of_points hr hsm hself hpoint]
    exact List.mem_filter.mpr ⟨hsm, decide_eq_true hself⟩

/-- **The records that stand for themselves share all uses out among themselves.** -/
theorem usesOf_perm (h : m.Accounts p names) (hs : m.Settled) :
    ((m.records.filter fun r => r.canonical = r.index).flatMap m.usesOf).Perm
      (m.records.flatMap (·.uses)) := by
  let heads := m.records.filter fun r => r.canonical = r.index
  have hnumbers : (heads.map (·.index)).Nodup := h.indices.sublist (List.filter_sublist.map _)
  have hmerged : (heads.flatMap m.merged).Perm m.records := by
    have hshares := flatMap_filter_perm (fun s => (m.canonical s).index) hnumbers m.records
    rw [List.flatMap_map] at hshares
    refine hshares.trans (.of_eq (List.filter_eq_self.mpr fun s hsm => ?_))
    exact List.contains_iff_mem.mpr (List.mem_map_of_mem (canonical_head h hs hsm))
  have hsorted : (heads.flatMap m.usesOf).Perm
      (heads.flatMap fun c => (m.merged c).flatMap (·.uses)) :=
    List.Perm.flatMap_left heads fun c _ => sortByStart_perm _ _
  refine hsorted.trans ?_
  rw [← List.flatMap_assoc]
  exact hmerged.flatMap_right _

/-! ## 5. Deduplication -/

/-- Each record that points at another one is reported with its name and that of the other. -/
theorem dedupe_reported (h : m.Accounts p names) (hu : m.Unmerged) :
    m.dedupe.2.map (fun c => (some c.old, some c.new)) =
      (m.dedupe.1.records.filter fun r => r.canonical ≠ r.index).map fun r =>
        (r.name, (m.dedupe.1.canonical r).name) := by
  have hchanges : m.dedupe.2 = (m.records.filter fun r =>
      !decide ((headOf m.records r).index = r.index)).map fun r =>
        (⟨r.name.getD [], (headOf m.records r).name.getD []⟩ : DedupeChange) := by
    rw [dedupe_changes h.indices, ← filterMap_unless]
    refine List.filterMap_congr fun r _ => ?_
    simp [Record.dedupeChange?]
  have hmoved : ∀ r : Record,
      decide ((r.pointed m.records).canonical ≠ (r.pointed m.records).index) =
        !decide ((headOf m.records r).index = r.index) := by
    intro r
    rw [canonical_pointed, decide_not]
    rfl
  rw [hchanges, List.map_map, dedupe_records m hu, List.filter_map, List.map_map]
  simp only [Function.comp_def, hmoved]
  refine List.map_congr_left fun r hr => ?_
  obtain ⟨hr, hne⟩ := List.mem_filter.mp hr
  obtain ⟨old, new, hold, hnew, -⟩ := names_of_headOf_ne hr (by simpa using hne)
  rw [canonical_dedupe h hu hr]
  simp [Record.pointed, hold, hnew]

/-- The name that is reported for a record is not its own. -/
theorem dedupe_changed (h : m.Accounts p names) (hid : m.Identified) :
    ∀ c ∈ m.dedupe.2, c.old ≠ c.new := by
  intro c hc heq
  rw [dedupe_changes h.indices] at hc
  obtain ⟨r, hr, hchange⟩ := List.mem_filterMap.mp hc
  unfold Record.dedupeChange? at hchange
  split at hchange
  · cases hchange
  · rename_i hne
    obtain ⟨old, new, hold, hnew, hgroup⟩ := names_of_headOf_ne hr hne
    obtain rfl := Option.some.inj hchange
    have hsame : old = new := by simpa [hold, hnew] using heq
    have hhead : r = headOf m.records r :=
      hid.eq_of_name_eq hr (headOf_mem hr) hold (hsame ▸ hnew) hgroup
    exact hne (congrArg Record.index hhead).symm

/-- A model whose records stand in the order of their numbers falls into classes of content. -/
theorem dedupe_classed (h : m.Accounts p names) (hu : m.Unmerged) (hid : m.Identified)
    (harena : (m.records.map (·.index)).Pairwise (· < ·)) :
    m.Classed m.dedupe.1 m.dedupe.2 := by
  have hd : m.dedupe.1.Accounts p names := h.dedupe hu
  have hs : m.dedupe.1.Settled := hu.settled_dedupe
  refine ⟨?_, ?_, ?_, ?_, ?_, ?_, ?_, ?_, ?_, ?_, ?_⟩
  · rw [dedupe_records m hu, List.map_map]
    refine (List.map_congr_left fun r hr => ?_).trans (List.map_id _)
    have hself : r.canonical = r.index := hu r hr
    cases r
    simp only at hself
    subst hself
    rfl
  · intro r' hr' s' hs'
    obtain ⟨r, hr, rfl⟩ := exists_pointed hu hr'
    obtain ⟨s, hs, rfl⟩ := exists_pointed hu hs'
    rw [canonical_eq_iff h hu hr hs, pointed_eq_iff h hr hs]
    exact headOf_eq_iff hr hs
  · intro r' hr'
    obtain ⟨r, hr, rfl⟩ := exists_pointed hu hr'
    exact find?_canonical h hu hr
  · rw [dedupe_records m hu, List.map_map]
    exact harena
  · intro r' hr'
    obtain ⟨r, hr, rfl⟩ := exists_pointed hu hr'
    rw [canonical_dedupe h hu hr, canonical_pointed, canonical_pointed, headOf_headOf hr]
    exact ⟨rfl, rfl⟩
  · intro r' hr' s' hs' hname heq
    obtain ⟨r, hr, rfl⟩ := exists_pointed hu hr'
    obtain ⟨s, hs, rfl⟩ := exists_pointed hu hs'
    rw [canonical_eq_iff h hu hr hs, headOf_eq_iff hr hs] at heq
    rcases heq with rfl | hcontent
    · rfl
    · have hnone : r.name = none := hname
      rw [Record.SameContent, hnone] at hcontent
      cases hcontent.1
  · exact dedupe_reported h hu
  · exact dedupe_changed h hid
  · refine (usesOf_perm hd hs).trans (.of_eq ?_)
    rw [dedupe_records m hu, List.flatMap_map]
    rfl
  · exact ((usesOf_perm hd hs).nodup_iff).mpr (List.Nodup.of_map _ hd.nodup_uses)
  · intro r
    exact pairwise_sortByStart _ _

end Model

/-- **Deduplication computes the classes of references with the same content**, whatever page the
references were read from and whatever names they have been given. -/
theorem classes_of_content (t : Text) (listNames : List Text) (a b : Renaming) :
    let m := ((Model.ofText t listNames).rename a b).1.mergeIdentities
    m.Classed m.dedupe.1 m.dedupe.2 := by
  intro m
  have h : m.Accounts (Page.ofText t) listNames :=
    ((accounts_ofText t listNames).rename a b).mergeIdentities
  have hu : m.Unmerged := ((unmerged_ofText t listNames).rename a b).mergeIdentities
  have hid : m.Identified :=
    ⟨mergeIdentities_keys _, forall_mergeIdentities (fun r s hr => hr.of_eq rfl rfl rfl) _
      (identified_rename t listNames a b)⟩
  exact dedupe_classed h hu hid (pairwise_index_merged t listNames a b)

end CiteMarkup
