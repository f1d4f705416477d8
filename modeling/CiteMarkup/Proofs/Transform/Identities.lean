import CiteMarkup.Proofs.Transform.Accounts
/-!
# What a record is known by

A named record has its identity for a key: its name with the group in front.  Renaming gives
it the key of its new name, and once identities are merged the keys are apart, so that no two
records share a name and a group (`eq_of_name_eq`).
-/

namespace CiteMarkup

/-! ## 1. Names are not empty -/

theorem nonempty?_eq_some {t u : Text} : Text.nonempty? t = some u ↔ t = u ∧ u ≠ [] := by
  unfold Text.nonempty?
  cases t with
  | nil => simp
  | cons c r =>
    constructor
    · intro h
      obtain rfl := Option.some.inj h
      exact ⟨rfl, List.cons_ne_nil _ _⟩
    · rintro ⟨rfl, -⟩
      rfl

theorem RefTag.name?_ne (t : RefTag) : t.name? ≠ some [] := by
  intro h
  obtain ⟨v, -, hv⟩ := Option.bind_eq_some_iff.mp h
  exact (nonempty?_eq_some.mp hv).2 rfl

/-- No occurrence of a page has an empty name. -/
theorem Page.name_ne_of_mem_survey {p : Page} {names : List Text} {o : Occurrence}
    (h : o ∈ (p.survey names).occurrences) : o.name ≠ some [] := by
  rw [survey_eq] at h
  rcases mem_occurrencesAmong.mp h with ⟨t, -, rfl⟩ | ⟨t, -, ht⟩ | ⟨c, hc, hoc⟩
  · exact t.name?_ne
  · obtain ⟨_, tag, _, _, -, -, -, rfl⟩ := exists_of_mem_listedIn ht
    exact tag.name?_ne
  · obtain ⟨i, e, he, rfl⟩ := Chain.mem_occurrences.mp hoc
    intro hnil
    have hmem : e ∈ c.entries := (List.mem_filter.mp (List.mem_of_getElem? he)).1
    rw [(mem_chainsAmong hc).2.2] at hmem
    exact value_ne_nil hmem (Option.some.inj hnil)

/-! ## 2. Keys are identities -/

/-- A record with a name has one that is not empty, and its identity for a key. -/
def Record.Identified (r : Record) : Prop :=
  ∀ n, r.name = some n → n ≠ [] ∧ r.key = identityOf n r.group

/-- The identity of the name and the group of a record is its key. -/
theorem Record.Identified.identity?_eq {r : Record} (h : r.Identified) :
    identity? r.name r.group = r.name.map fun _ => r.key := by
  cases hname : r.name with
  | none => rfl
  | some n =>
    obtain ⟨hne, hkey⟩ := h n hname
    rw [identity?, Option.bind_some, nonempty?_eq_some.mpr ⟨rfl, hne⟩, hkey]
    rfl

theorem Record.Identified.of_eq {r s : Record} (h : r.Identified) (hname : s.name = r.name)
    (hkey : s.key = r.key) (hgroup : s.group = r.group) : s.Identified := by
  intro n hn
  rw [hkey, hgroup]
  exact h n (hname ▸ hn)

theorem Record.identified_add {r : Record} (h : r.Identified) (o : Occurrence) :
    (r.add o).Identified := by
  unfold Record.add
  split
  · exact h.of_eq rfl rfl rfl
  · exact h.of_eq rfl rfl rfl

theorem Record.identified_opening {o : Occurrence} (ho : o.name ≠ some []) (index n : Nat) :
    (Record.opening index (keyOf n o).1 o).Identified := by
  refine Record.identified_add (fun m hm => ?_) o
  have hm : o.name = some m := hm
  have hne : m ≠ [] := fun h => ho (by rw [hm, h])
  have hid : identity? o.name o.group = some (identityOf m o.group) := by
    rw [identity?, hm, Option.bind_some, nonempty?_eq_some.mpr ⟨rfl, hne⟩, Option.map_some]
  exact ⟨hne, by simp only [keyOf, hid]⟩

theorem identified_recordsFrom {os : List Occurrence} (ho : ∀ o ∈ os, o.name ≠ some []) :
    ∀ r ∈ recordsFrom 0 [] os, r.Identified :=
  forall_recordsFrom (fun _ o hr => Record.identified_add hr o)
    (fun o hmem index n => Record.identified_opening (ho o hmem) index n)
    (fun _ hr => by cases hr)

/-! ## 3. Stage by stage -/

theorem Record.identified_withName (r : Record) {name : Text} (h : name ≠ []) :
    (r.withName name).Identified := by
  intro n hn
  obtain rfl := Option.some.inj hn
  exact ⟨h, rfl⟩

theorem Record.identified_withoutName (r : Record) (n : Nat) : (r.withoutName n).Identified :=
  fun _ hm => by cases hm

theorem identified_renameOne {r : Record} (h : r.Identified) (names nameless : Renaming)
    (n : Nat) : (renameOne names nameless n r).1.record.Identified := by
  unfold renameOne
  split
  · split
    · exact r.identified_withoutName n
    · rename_i new _
      split
      · exact h
      · rename_i hnew
        refine r.identified_withName fun hnil => hnew ?_
        rw [hnil]
        rfl
    · exact h
  · split
    · exact h
    · split
      · rename_i new hnew
        obtain ⟨v, -, hv⟩ := Option.bind_eq_some_iff.mp hnew
        exact r.identified_withName (nonempty?_eq_some.mp hv).2
      · exact h

theorem identified_renameAll {names nameless : Renaming} : ∀ {records : List Record} {n : Nat},
    (∀ r ∈ records, r.Identified) →
    ∀ x ∈ renameAll names nameless n records, x.record.Identified
  | [], n, _, x, hx => by simp [renameAll] at hx
  | r :: rs, n, h, x, hx => by
    rw [renameAll] at hx
    rcases List.mem_cons.mp hx with rfl | hx
    · exact identified_renameOne (h r List.mem_cons_self) names nameless n
    · exact identified_renameAll (fun s hs => h s (List.mem_cons_of_mem _ hs)) x hx

theorem identified_handOut : ∀ {xs : List Renamed} {names : List (Option Text)},
    (∀ x ∈ xs, x.record.Identified) → ∀ y ∈ handOut names xs, y.1.Identified
  | [], names, _, y, hy => by cases names <;> simp [handOut] at hy
  | x :: xs, names, h, y, hy => by
    have hx := h x List.mem_cons_self
    have rest : ∀ {names'}, y ∈ handOut names' xs → y.1.Identified := fun hy =>
      identified_handOut (fun z hz => h z (List.mem_cons_of_mem _ hz)) y hy
    cases names with
    | nil =>
      rw [handOut] at hy
      rcases List.mem_cons.mp hy with rfl | hy
      · exact hx
      · exact rest hy
    | cons n ns =>
      rw [handOut] at hy
      split at hy
      · rcases List.mem_cons.mp hy with rfl | hy
        · exact hx
        · exact rest hy
      · split at hy
        · rename_i new hnew
          rcases List.mem_cons.mp hy with rfl | hy
          · obtain ⟨v, -, hv⟩ := Option.bind_eq_some_iff.mp hnew
            exact x.record.identified_withName (nonempty?_eq_some.mp hv).2
          · exact rest hy
        · rcases List.mem_cons.mp hy with rfl | hy
          · exact hx
          · exact rest hy

/-- Keys are apart, and those of named records are identities. -/
structure Model.Identified (m : Model) : Prop where
  keys : (m.records.map (·.key)).Nodup
  records : ∀ r ∈ m.records, r.Identified

theorem identified_rename (t : Text) (listNames : List Text) (a b : Renaming) :
    ∀ r ∈ ((Model.ofText t listNames).rename a b).1.records, r.Identified := by
  intro r hr
  obtain ⟨y, hy, rfl⟩ := List.mem_map.mp hr
  refine identified_handOut (identified_renameAll (identified_recordsFrom ?_)) y hy
  intro occ hocc
  have hsurvey : occ ∈ ((Page.ofText t).survey listNames).occurrences :=
    (sortByStart_perm _ _).mem_iff.mp hocc
  exact Page.name_ne_of_mem_survey hsurvey

theorem identified_merged (o : Options) (title : Option Text) (t : Text) :
    (transform o title t).merged.Identified where
  keys := mergeIdentities_keys _
  records := by
    refine forall_mergeIdentities (fun r s hr => hr.of_eq rfl rfl rfl) _ fun r hr => ?_
    exact identified_rename _ _ _ _ r hr

/-- The records of a run, but for locations and pointers, are those that merging has left. -/
theorem Model.Identified.of_map {m m' : Model} (h : m.Identified) {f : Record → Record}
    (hrecords : m'.records = m.records.map f) (hname : ∀ r, (f r).name = r.name)
    (hkey : ∀ r, (f r).key = r.key) (hgroup : ∀ r, (f r).group = r.group) : m'.Identified where
  keys := by
    have heq : m.records.map ((·.key) ∘ f) = m.records.map (·.key) :=
      List.map_congr_left fun r _ => hkey r
    rw [hrecords, List.map_map, heq]
    exact h.keys
  records := by
    intro r hr
    rw [hrecords] at hr
    obtain ⟨s, hs, rfl⟩ := List.mem_map.mp hr
    exact (h.records s hs).of_eq (hname s) (hkey s) (hgroup s)

theorem Model.Identified.place {m : Model} (h : m.Identified) (mode : Mode) :
    (m.place mode).1.Identified := by
  refine h.of_map (place_records m mode) (fun r => ?_) (fun r => ?_) (fun r => ?_) <;>
    · obtain ⟨l, hl⟩ := m.locateRecord_eq mode r
      rw [hl]

/-- **The records of a run have their identities for keys, and no two share one.** -/
theorem identified_placed (o : Options) (title : Option Text) (t : Text) :
    (transform o title t).placed.Identified := by
  have hm := identified_merged o title t
  have hu : (transform o title t).merged.Unmerged :=
    ((unmerged_ofText t _).rename _ _).mergeIdentities
  rw [placed_eq]
  split
  · refine Model.Identified.place ?_ _
    exact hm.of_map (dedupe_records _ hu) (fun _ => rfl) (fun _ => rfl) (fun _ => rfl)
  · exact hm.place _

/-- **A named record is known by its name and its group.** -/
theorem Model.Identified.eq_of_name_eq {m : Model} (h : m.Identified) {r s : Record}
    (hr : r ∈ m.records) (hs : s ∈ m.records) {n : Text} (hrn : r.name = some n)
    (hsn : s.name = some n) (hgroup : r.group = s.group) : r = s := by
  refine List.inj_on_of_nodup_map h.keys hr hs ?_
  rw [(h.records r hr n hrn).2, (h.records s hs n hsn).2, hgroup]

end CiteMarkup
