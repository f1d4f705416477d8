import CiteMarkup.Proofs.Transform.Renaming
import CiteMarkup.Transform.Run
import Mathlib.Data.List.Nodup
/-!
# A transform accounts for every occurrence

From the reading of a page to the placing of bodies, the records hold the occurrences of the
page, each in one record and once (`Model.Accounts`).  The stages change names, put records
together and set pointers, but they neither lose nor double an occurrence
(`accounts_placed`), and a pointer leads in one step to a record that points at itself
(`settled_placed`).
-/

namespace CiteMarkup

/-! ## 1. Accounting -/

/-- The records of the model hold the occurrences of the page, and its lists and chains are
those of the page. -/
structure Model.Accounts (m : Model) (p : Page) (names : List Text) : Prop where
  page_eq : m.page = p
  lists_eq : m.lists = (p.survey names).lists
  chains_eq : m.chains = (p.survey names).chains
  uses : (m.records.flatMap (·.uses)).Perm
    ((p.survey names).occurrences.filter fun o => !o.isListed)
  listed : (m.records.flatMap (·.listed)).Perm
    ((p.survey names).occurrences.filter (·.isListed))
  indices : (m.records.map (·.index)).Nodup

/-- Each record stands for itself. -/
def Model.Unmerged (m : Model) : Prop := ∀ r ∈ m.records, r.canonical = r.index

/-- The record stands for itself, or points at one that does and that is like it. -/
def Record.Points (records : List Record) (r : Record) : Prop :=
  r.canonical = r.index ∨
    ∃ s ∈ records, s.canonical = s.index ∧ r.canonical = s.index ∧
      s.likeness? = r.likeness? ∧ r.likeness?.isSome

/-- Every record of the model points at one that stands for itself. -/
def Model.Settled (m : Model) : Prop := ∀ r ∈ m.records, r.Points m.records

theorem Model.Unmerged.settled {m : Model} (h : m.Unmerged) : m.Settled := fun r hr =>
  .inl (h r hr)

/-! ## 2. Stage by stage -/

theorem accounts_ofText (t : Text) (names : List Text) :
    (Model.ofText t names).Accounts (Page.ofText t) names where
  page_eq := rfl
  lists_eq := rfl
  chains_eq := rfl
  uses := (recordsFrom_uses _).trans ((sortByStart_perm _ _).filter _)
  listed := (recordsFrom_listed _).trans ((sortByStart_perm _ _).filter _)
  indices := by
    rw [Model.ofText, (numbered_recordsFrom _).indices]
    exact List.nodup_range

theorem unmerged_ofText (t : Text) (names : List Text) : (Model.ofText t names).Unmerged :=
  (numbered_recordsFrom _).canonical

namespace Model

variable {m : Model} {p : Page} {names : List Text}

/-- Records that differ only in what the model accounts for nothing by. -/
theorem Accounts.of_map {m' : Model} (h : m.Accounts p names) (hpage : m'.page = m.page)
    (hlists : m'.lists = m.lists) (hchains : m'.chains = m.chains)
    (huses : m'.records.map (·.uses) = m.records.map (·.uses))
    (hlisted : m'.records.map (·.listed) = m.records.map (·.listed))
    (hindices : m'.records.map (·.index) = m.records.map (·.index)) : m'.Accounts p names where
  page_eq := hpage.trans h.page_eq
  lists_eq := hlists.trans h.lists_eq
  chains_eq := hchains.trans h.chains_eq
  uses := by
    rw [List.flatMap_def, huses, ← List.flatMap_def]
    exact h.uses
  listed := by
    rw [List.flatMap_def, hlisted, ← List.flatMap_def]
    exact h.listed
  indices := by
    rw [hindices]
    exact h.indices

theorem Accounts.rename (h : m.Accounts p names) (a b : Renaming) :
    (m.rename a b).1.Accounts p names :=
  h.of_map rfl rfl rfl (rename_map (fun _ => rfl) m a b) (rename_map (fun _ => rfl) m a b)
    (rename_map (fun _ => rfl) m a b)

theorem Unmerged.rename (h : m.Unmerged) (a b : Renaming) : (m.rename a b).1.Unmerged := by
  have hmap := rename_map (f := fun r => (r.canonical, r.index)) (fun _ => rfl) m a b
  intro r hr
  have hmem : (r.canonical, r.index) ∈ m.records.map fun r => (r.canonical, r.index) := by
    rw [← hmap]
    exact List.mem_map_of_mem hr
  obtain ⟨s, hs, heq⟩ := List.mem_map.mp hmem
  obtain ⟨hc, hi⟩ := Prod.mk.inj heq
  rw [← hc, ← hi, h s hs]

theorem Accounts.mergeIdentities (h : m.Accounts p names) :
    m.mergeIdentities.Accounts p names where
  page_eq := h.page_eq
  lists_eq := h.lists_eq
  chains_eq := h.chains_eq
  uses := (mergeIdentities_held Record.uses_absorb m).trans h.uses
  listed := (mergeIdentities_held Record.listed_absorb m).trans h.listed
  indices := h.indices.sublist (mergeIdentities_indices m)

theorem Unmerged.mergeIdentities (h : m.Unmerged) : m.mergeIdentities.Unmerged :=
  forall_mergeIdentities (fun _ _ hr => hr) m h

theorem Accounts.dedupe (h : m.Accounts p names) (hu : m.Unmerged) :
    m.dedupe.1.Accounts p names := by
  have hmap : ∀ {α : Type} {f : Record → α}, (∀ r, f (r.pointed m.records) = f r) →
      m.dedupe.1.records.map f = m.records.map f := fun hf => by
    rw [dedupe_records m hu, List.map_map]
    exact List.map_congr_left fun r _ => hf r
  exact h.of_map rfl rfl rfl (hmap fun _ => rfl) (hmap fun _ => rfl) (hmap fun _ => rfl)

theorem Unmerged.settled_dedupe (hu : m.Unmerged) : m.dedupe.1.Settled := by
  intro r' hr'
  rw [dedupe_records m hu] at hr' ⊢
  obtain ⟨r, hr, rfl⟩ := List.mem_map.mp hr'
  cases hl : leader? m.records r with
  | none => exact .inl (by simp [Record.pointed, hl])
  | some s =>
    obtain ⟨hs, hlike, hself⟩ := likeness?_of_leader? hl
    have hsome : r.likeness?.isSome := by
      obtain ⟨l, hr, -⟩ := Option.bind_eq_some_iff.mp hl
      rw [hr]
      rfl
    exact .inr ⟨s.pointed m.records, List.mem_map_of_mem hs, by simp [Record.pointed, hself],
      by simp [Record.pointed, hl], hlike, hsome⟩

/-- Placing sets locations only. -/
theorem place_records (m : Model) (mode : Mode) :
    (m.place mode).1.records = m.records.map fun r => (m.locateRecord mode r).1 := by
  simp [place]

theorem locateRecord_eq (m : Model) (mode : Mode) (r : Record) :
    ∃ l, (m.locateRecord mode r).1 = { r with location := l } := by
  unfold locateRecord
  split
  · exact ⟨_, rfl⟩
  · exact ⟨r.location, rfl⟩

/-- What a location does not change holds of all records that are placed. -/
theorem forall_place {motive : Record → Prop}
    (h : ∀ r ∈ m.records, ∀ l, motive { r with location := l }) (mode : Mode) :
    ∀ r ∈ (m.place mode).1.records, motive r := by
  intro r hr
  rw [place_records] at hr
  obtain ⟨r₀, hr₀, rfl⟩ := List.mem_map.mp hr
  obtain ⟨l, hl⟩ := locateRecord_eq m mode r₀
  rw [hl]
  exact h r₀ hr₀ l

theorem place_map {α : Type} {f : Record → α}
    (hf : ∀ (r : Record) (l : Location), f { r with location := l } = f r) (m : Model)
    (mode : Mode) : (m.place mode).1.records.map f = m.records.map f := by
  rw [place_records, List.map_map]
  refine List.map_congr_left fun r _ => ?_
  obtain ⟨l, hl⟩ := locateRecord_eq m mode r
  rw [Function.comp, hl, hf]

theorem Accounts.place (h : m.Accounts p names) (mode : Mode) :
    (m.place mode).1.Accounts p names :=
  h.of_map rfl rfl rfl (place_map (fun _ _ => rfl) m mode) (place_map (fun _ _ => rfl) m mode)
    (place_map (fun _ _ => rfl) m mode)

theorem Settled.place (h : m.Settled) (mode : Mode) : (m.place mode).1.Settled := by
  intro r' hr'
  rw [place_records] at hr' ⊢
  obtain ⟨r, hr, rfl⟩ := List.mem_map.mp hr'
  obtain ⟨l, hl⟩ := locateRecord_eq m mode r
  rw [hl]
  rcases h r hr with hself | ⟨s, hs, hsc, hrc, hlike, hsome⟩
  · exact .inl hself
  · obtain ⟨l', hl'⟩ := locateRecord_eq m mode s
    exact .inr ⟨(m.locateRecord mode s).1, List.mem_map_of_mem hs, by rw [hl']; exact hsc,
      by rw [hl']; exact hrc, by rw [hl']; exact hlike, hsome⟩

end Model

/-! ## 3. A whole run -/

/-- The model of a run before bodies are placed: after deduplication if that was asked for. -/
theorem placed_eq (o : Options) (title : Option Text) (t : Text) :
    (transform o title t).placed =
      ((if o.dedupe then ((transform o title t).merged.dedupe).1
        else (transform o title t).merged).place (transform o title t).mode).1 := by
  cases h : o.dedupe <;> simp [transform, h]

theorem merged_eq (o : Options) (title : Option Text) (t : Text) :
    (transform o title t).merged =
      ((Model.ofText t o.listNames.toList).rename o.renameMap
        o.renameNameless).1.mergeIdentities := rfl

/-- The model of a run before bodies are placed. -/
def Run.unplaced (r : Run) : Model := (r.deduped.map (·.1)).getD r.merged

theorem unplaced_eq (o : Options) (title : Option Text) (t : Text) :
    (transform o title t).unplaced =
      if o.dedupe then ((transform o title t).merged.dedupe).1
        else (transform o title t).merged := by
  cases h : o.dedupe <;> simp [Run.unplaced, transform, h]

theorem accounts_unplaced (o : Options) (title : Option Text) (t : Text) :
    (transform o title t).unplaced.Accounts (Page.ofText t) o.listNames.toList := by
  have hm : (transform o title t).merged.Accounts (Page.ofText t) o.listNames.toList :=
    ((accounts_ofText t _).rename _ _).mergeIdentities
  have hu : (transform o title t).merged.Unmerged :=
    ((unmerged_ofText t _).rename _ _).mergeIdentities
  rw [unplaced_eq]
  split
  · exact hm.dedupe hu
  · exact hm

theorem settled_unplaced (o : Options) (title : Option Text) (t : Text) :
    (transform o title t).unplaced.Settled := by
  have hu : (transform o title t).merged.Unmerged :=
    ((unmerged_ofText t _).rename _ _).mergeIdentities
  rw [unplaced_eq]
  split
  · exact hu.settled_dedupe
  · exact hu.settled

/-- **A run accounts for every occurrence of the page.** -/
theorem accounts_placed (o : Options) (title : Option Text) (t : Text) :
    (transform o title t).placed.Accounts (Page.ofText t) o.listNames.toList :=
  (accounts_unplaced o title t).place _

/-- **Every record of a run points at one that stands for itself.** -/
theorem settled_placed (o : Options) (title : Option Text) (t : Text) :
    (transform o title t).placed.Settled :=
  (settled_unplaced o title t).place _

/-! ## 4. One record for each occurrence -/

theorem unique_of_nodup_flatMap {α β γ : Type} {l : List α} {f : α → List β} {g : β → γ}
    (h : ((l.flatMap f).map g).Nodup) {a a' : α} (ha : a ∈ l) (ha' : a' ∈ l) {b b' : β}
    (hb : b ∈ f a) (hb' : b' ∈ f a') (hg : g b = g b') : a = a' ∧ b = b' := by
  have heq : b = b' := List.inj_on_of_nodup_map h (List.mem_flatMap.mpr ⟨a, ha, hb⟩)
    (List.mem_flatMap.mpr ⟨a', ha', hb'⟩) hg
  refine ⟨?_, heq⟩
  have hdisjoint := (List.nodup_flatMap.mp (List.Nodup.of_map g h)).2
  have hR := List.Pairwise.forall_of_forall_of_flip
    (R := fun x y => x = y ∨ List.Disjoint (f x) (f y)) (fun _ _ => .inl rfl)
    (hdisjoint.imp fun hxy => .inr hxy)
    (hdisjoint.imp fun hxy => .inr fun _ hy hx => hxy hx hy) ha ha'
  rcases hR with hR | hR
  · exact hR
  · exact absurd (heq ▸ hb') (hR hb)

/-- A record that stands for itself is where the steps along the merges end. -/
theorem Model.canonicalFrom_self {m : Model} {r : Record} (hself : r.canonical = r.index) :
    ∀ n, m.canonicalFrom n r = r
  | 0 => rfl
  | n + 1 => by rw [canonicalFrom, if_pos hself]

theorem Model.canonical_self {m : Model} {r : Record} (hself : r.canonical = r.index) :
    m.canonical r = r :=
  canonicalFrom_self hself _

namespace Model.Accounts

variable {m : Model} {p : Page} {names : List Text} (h : m.Accounts p names)
include h

theorem nodup_uses : ((m.records.flatMap (·.uses)).map Occurrence.seat).Nodup :=
  ((h.uses.map _).nodup_iff).mpr
    (List.Nodup.sublist (List.filter_sublist.map _) (p.nodup_seats_survey names))

theorem nodup_listed : ((m.records.flatMap (·.listed)).map Occurrence.seat).Nodup :=
  ((h.listed.map _).nodup_iff).mpr
    (List.Nodup.sublist (List.filter_sublist.map _) (p.nodup_seats_survey names))

theorem mem_survey_of_use {r : Record} {o : Occurrence} (hr : r ∈ m.records) (ho : o ∈ r.uses) :
    o ∈ (p.survey names).occurrences ∧ o.isListed = false := by
  have hmem := h.uses.mem_iff.mp (List.mem_flatMap.mpr ⟨r, hr, ho⟩)
  simpa using List.mem_filter.mp hmem

theorem mem_survey_of_listed {r : Record} {o : Occurrence} (hr : r ∈ m.records)
    (ho : o ∈ r.listed) : o ∈ (p.survey names).occurrences ∧ o.isListed = true := by
  have hmem := h.listed.mem_iff.mp (List.mem_flatMap.mpr ⟨r, hr, ho⟩)
  simpa using List.mem_filter.mp hmem

/-- A use belongs to one record. -/
theorem unique_use {r s : Record} {o o' : Occurrence} (hr : r ∈ m.records) (hs : s ∈ m.records)
    (ho : o ∈ r.uses) (ho' : o' ∈ s.uses) (hseat : o.seat = o'.seat) : r = s ∧ o = o' :=
  unique_of_nodup_flatMap h.nodup_uses hr hs ho ho' hseat

/-- A definition belongs to one record. -/
theorem unique_listed {r s : Record} {o o' : Occurrence} (hr : r ∈ m.records)
    (hs : s ∈ m.records) (ho : o ∈ r.listed) (ho' : o' ∈ s.listed)
    (hseat : o.seat = o'.seat) : r = s ∧ o = o' :=
  unique_of_nodup_flatMap h.nodup_listed hr hs ho ho' hseat

theorem mem_chains {c : Chain} (hc : c ∈ m.chains) :
    .chain c.template ∈ p.tokens names ∧ c.entries = placedEntries c.template.paramText := by
  rw [h.chains_eq, Page.survey_eq] at hc
  exact (mem_chainsAmong hc).2

theorem exists_chain_of_token {t : Template} (ht : .chain t ∈ p.tokens names) :
    ∃ c ∈ m.chains, c.template = t := by
  rw [h.chains_eq, Page.survey_eq]
  exact exists_chain_of_mem ht 0

theorem mem_lists {t : Template} : t ∈ m.lists ↔ .list t ∈ p.tokens names := by
  rw [h.lists_eq, Page.survey_eq]
  exact mem_listsAmong

/-- A use that is no name of a chain is a tag of the page. -/
theorem exists_tag {r : Record} {occ : Occurrence} (hr : r ∈ m.records)
    (ho : occ ∈ r.uses) (hc : occ.isChained = false) :
    ∃ t, .tag t ∈ p.tokens names ∧ occ = t.occurrence := by
  obtain ⟨hs, hl⟩ := h.mem_survey_of_use hr ho
  rw [Page.survey_eq] at hs
  rcases Page.mem_occurrencesAmong.mp hs with ⟨t, ht, rfl⟩ | ⟨t, -, ht⟩ | ⟨c, -, hoc⟩
  · exact ⟨t, ht, rfl⟩
  · obtain ⟨_, _, _, _, -, -, -, rfl⟩ := Page.exists_of_mem_listedIn ht
    cases hl
  · obtain ⟨_, _, -, rfl⟩ := Chain.mem_occurrences.mp hoc
    cases hc

/-- A definition stands in an output list of the page. -/
theorem exists_list {r : Record} {occ : Occurrence} (hr : r ∈ m.records)
    (ho : occ ∈ r.listed) : ∃ t, .list t ∈ p.tokens names ∧ occ ∈ p.listedIn t := by
  obtain ⟨hs, hl⟩ := h.mem_survey_of_listed hr ho
  rw [Page.survey_eq] at hs
  rcases Page.mem_occurrencesAmong.mp hs with ⟨t, -, rfl⟩ | ⟨t, ht, hmem⟩ | ⟨c, -, hoc⟩
  · unfold RefTag.occurrence Occurrence.isListed at hl
    cases hcontent : t.content <;> simp [hcontent] at hl
  · exact ⟨t, ht, hmem⟩
  · obtain ⟨_, _, -, rfl⟩ := Chain.mem_occurrences.mp hoc
    cases hl

/-- A chain is known by its number, and by where it stands. -/
theorem chain_eq {c d : Chain} (hc : c ∈ m.chains) (hd : d ∈ m.chains)
    (heq : c.id = d.id ∨ c.template = d.template) : c = d := by
  have hpair := pairwise_chainsAmong (n := 0) (Page.pairwise_lt_tokens p names)
  rw [h.chains_eq, Page.survey_eq] at hc hd
  have hR := List.Pairwise.forall_of_forall_of_flip
    (R := fun c d : Chain => c = d ∨
      c.id ≠ d.id ∧ c.template.span.start ≠ d.template.span.start)
    (fun _ _ => .inl rfl) (hpair.imp fun hcd => .inr ⟨by omega, by omega⟩)
    (hpair.imp fun hcd => .inr ⟨by omega, by omega⟩) hc hd
  refine hR.resolve_right fun hne => ?_
  rcases heq with hid | htemplate
  · exact hne.1 hid
  · exact hne.2 (by rw [htemplate])

theorem isInvocation_of_chain {c : Chain} (hc : c ∈ m.chains) :
    p.IsInvocation c.template :=
  Page.isInvocation_of_mem_citeMarks (Page.mem_citeMarks_of_chain (h.mem_chains hc).1)

/-- A record is known by its number. -/
theorem eq_of_index_eq {r s : Record} (hr : r ∈ m.records) (hs : s ∈ m.records)
    (hi : r.index = s.index) : r = s :=
  List.inj_on_of_nodup_map h.indices hr hs hi

theorem record?_index {r : Record} (hr : r ∈ m.records) : m.record? r.index = some r := by
  rw [record?, List.find?_eq_some_iff_append]
  obtain ⟨before, after, heq⟩ := List.append_of_mem hr
  refine ⟨by simp, before, after, heq, fun s hs => ?_⟩
  have hn := h.indices
  rw [heq, List.map_append, List.map_cons, List.nodup_append] at hn
  have hne := hn.2.2 s.index (List.mem_map_of_mem hs) r.index List.mem_cons_self
  simpa using hne

/-- A record that points at one that stands for itself has that for its canonical one. -/
theorem canonical_of_points {r s : Record} (hr : r ∈ m.records) (hs : s ∈ m.records)
    (hself : s.canonical = s.index) (hpoint : r.canonical = s.index) : m.canonical r = s := by
  have hlen : 0 < m.records.length := List.length_pos_of_mem hr
  rw [canonical]
  obtain ⟨n, hn⟩ := Nat.exists_eq_add_of_lt hlen
  rw [hn, Nat.zero_add, canonicalFrom]
  split
  · rename_i hri
    exact h.eq_of_index_eq hr hs (hri.symm.trans hpoint)
  · rw [hpoint, h.record?_index hs]
    exact canonicalFrom_self hself n

end Model.Accounts
end CiteMarkup
