import CiteMarkup.Proofs.Reference.Survey
/-!
# How occurrences are sorted into records

An occurrence goes into the record of its key, or begins a new one.  The keys of the records
stay apart (`numbered_recordsFrom`), so exactly one record takes it, and all records
together hold the occurrences they were given (`recordsFrom_uses`, `recordsFrom_listed`).
-/

namespace CiteMarkup

/-! ## 1. Changing the record of a key -/

theorem map_key_update {f : Record → Record} (key : Text) (hf : ∀ r, (f r).key = r.key)
    (records : List Record) :
    (records.map fun r => if r.key == key then f r else r).map (·.key) =
      records.map (·.key) := by
  rw [List.map_map]
  refine List.map_congr_left fun r _ => ?_
  simp only [Function.comp]
  split
  · exact hf r
  · rfl

/-- What the records hold after the one with the key has taken in `extra`. -/
theorem flatMap_update_perm {α : Type} {f : Record → Record} {held : Record → List α}
    {extra : List α} {key : Text} (hf : ∀ r, (held (f r)).Perm (held r ++ extra)) :
    ∀ {records : List Record}, (records.map (·.key)).Nodup →
      (records.any fun r => r.key == key) = true →
      ((records.map fun r => if r.key == key then f r else r).flatMap held).Perm
        (records.flatMap held ++ extra)
  | [], _, h => by simp at h
  | r :: rs, hn, h => by
    rw [List.map_cons, List.nodup_cons] at hn
    rw [List.map_cons, List.flatMap_cons, List.flatMap_cons]
    by_cases hk : (r.key == key) = true
    · -- the keys are apart, so the other records stay as they are
      have hrest : (rs.map fun s => if s.key == key then f s else s) = rs := by
        refine (List.map_congr_left fun s hs => ?_).trans (List.map_id rs)
        rw [if_neg]
        · rfl
        · intro hs'
          rw [beq_iff_eq] at hk hs'
          exact hn.1 (List.mem_map.mpr ⟨s, hs, hs'.trans hk.symm⟩)
      rw [if_pos hk, hrest, List.append_assoc]
      refine ((hf r).append_right _).trans ?_
      rw [List.append_assoc]
      exact List.perm_append_comm.append_left _
    · rw [if_neg hk, List.append_assoc]
      rw [List.any_cons, Bool.or_eq_true] at h
      exact (flatMap_update_perm hf hn.2 (h.resolve_left hk)).append_left _

/-! ## 2. One occurrence -/

section SortInto

variable (key : Text) (o : Occurrence) {records : List Record}

@[simp] theorem Record.key_add (r : Record) : (r.add o).key = r.key := by
  unfold Record.add
  split <;> rfl

@[simp] theorem Record.index_add (r : Record) : (r.add o).index = r.index := by
  unfold Record.add
  split <;> rfl

@[simp] theorem Record.canonical_add (r : Record) : (r.add o).canonical = r.canonical := by
  unfold Record.add
  split <;> rfl

theorem Record.uses_add (r : Record) :
    (r.add o).uses = r.uses ++ [o].filter fun o => !o.isListed := by
  unfold Record.add
  split <;> simp_all

theorem Record.listed_add (r : Record) :
    (r.add o).listed = r.listed ++ [o].filter (·.isListed) := by
  unfold Record.add
  split <;> simp_all

theorem not_mem_keys (h : (records.any fun r => r.key == key) = false) :
    key ∉ records.map (·.key) := by
  intro hm
  obtain ⟨r, hr, heq⟩ := List.mem_map.mp hm
  rw [List.any_eq_false] at h
  exact h r hr (by simpa using heq)

theorem nodup_keys_append {s : Record} (hn : (records.map (·.key)).Nodup)
    (h : (records.any fun r => r.key == s.key) = false) :
    ((records ++ [s]).map (·.key)).Nodup := by
  rw [List.map_append, List.map_singleton, ← List.concat_eq_append, List.nodup_concat]
  exact ⟨not_mem_keys s.key h, hn⟩

theorem nodup_keys_sortInto (hn : (records.map (·.key)).Nodup) :
    ((sortInto key o records).map (·.key)).Nodup := by
  unfold sortInto
  split
  · rwa [map_key_update key (Record.key_add o)]
  · rename_i h
    have hkey : (Record.opening records.length key o).key = key := Record.key_add o _
    refine nodup_keys_append hn ?_
    rw [hkey]
    exact Bool.eq_false_iff.mpr h

/-- One occurrence more is held, as a use or as a definition. -/
theorem flatMap_sortInto {held : Record → List Occurrence} {keep : Occurrence → Bool}
    (hadd : ∀ r : Record, held (r.add o) = held r ++ [o].filter keep)
    (hnew : ∀ r : Record, r.uses = [] → r.listed = [] → held r = [])
    (hn : (records.map (·.key)).Nodup) :
    ((sortInto key o records).flatMap held).Perm
      (records.flatMap held ++ [o].filter keep) := by
  unfold sortInto
  split
  · rename_i h
    exact flatMap_update_perm (fun r => .of_eq (hadd r)) hn h
  · rw [List.flatMap_append, List.flatMap_singleton, Record.opening, hadd, hnew _ rfl rfl,
      List.nil_append]

/-- A record in whose place the occurrence has been put, or a new one with the next number. -/
theorem mem_sortInto {r : Record} (h : r ∈ sortInto key o records) :
    r ∈ records ∨ (∃ s ∈ records, r = s.add o) ∨ r = Record.opening records.length key o := by
  unfold sortInto at h
  split at h
  · obtain ⟨s, hs, rfl⟩ := List.mem_map.mp h
    split
    · exact .inr (.inl ⟨s, hs, rfl⟩)
    · exact .inl hs
  · rcases List.mem_append.mp h with h | h
    · exact .inl h
    · exact .inr (.inr (List.mem_singleton.mp h))

theorem indices_sortInto (hi : records.map (·.index) = List.range records.length) :
    (sortInto key o records).map (·.index) = List.range (sortInto key o records).length := by
  unfold sortInto
  split
  · rw [List.length_map, ← hi, List.map_map]
    refine List.map_congr_left fun r _ => ?_
    simp only [Function.comp]
    split
    · exact Record.index_add o r
    · rfl
  · rw [List.map_append, List.map_singleton, hi, List.length_append, List.length_singleton,
      List.range_succ, Record.opening, Record.index_add]

end SortInto

/-! ## 3. All occurrences -/

/-- What holds of the records that occurrences have been sorted into: their keys are apart,
they are numbered in order, and none has been merged. -/
structure Numbered (records : List Record) : Prop where
  keys : (records.map (·.key)).Nodup
  indices : records.map (·.index) = List.range records.length
  canonical : ∀ r ∈ records, r.canonical = r.index

theorem Numbered.sortInto {records : List Record} (h : Numbered records) (key : Text)
    (o : Occurrence) : Numbered (sortInto key o records) where
  keys := nodup_keys_sortInto key o h.keys
  indices := indices_sortInto key o h.indices
  canonical := by
    intro r hr
    rcases mem_sortInto key o hr with hr | ⟨s, hs, rfl⟩ | rfl
    · exact h.canonical r hr
    · rw [Record.canonical_add, Record.index_add, h.canonical s hs]
    · rw [Record.opening, Record.canonical_add, Record.index_add]

/-- The key under which the next occurrence is sorted in, and the count of nameless ones
behind it. -/
def keyOf (n : Nat) (o : Occurrence) : Text × Nat :=
  match identity? o.name o.group with
  | some key => (key, n)
  | none => (namelessIdentity n, n + 1)

theorem recordsFrom_cons (n : Nat) (records : List Record) (o : Occurrence)
    (os : List Occurrence) :
    recordsFrom n records (o :: os) =
      recordsFrom (keyOf n o).2 (sortInto (keyOf n o).1 o records) os := by
  rw [recordsFrom, keyOf]
  cases identity? o.name o.group <;> rfl

theorem Numbered.recordsFrom : ∀ {os : List Occurrence} {n : Nat} {records : List Record},
    Numbered records → Numbered (recordsFrom n records os)
  | [], n, records, h => h
  | o :: os, n, records, h => by
    rw [recordsFrom_cons]
    exact (h.sortInto _ o).recordsFrom

/-- What further occurrences do not change holds of all records if it holds of each when it is
begun. -/
theorem forall_recordsFrom {motive : Record → Prop}
    (hadd : ∀ (r : Record) (o : Occurrence), motive r → motive (r.add o)) :
    ∀ {os : List Occurrence} {n : Nat} {records : List Record},
      (∀ o ∈ os, ∀ index n, motive (Record.opening index (keyOf n o).1 o)) →
      (∀ r ∈ records, motive r) → ∀ r ∈ recordsFrom n records os, motive r
  | [], n, records, _, h => h
  | o :: os, n, records, ho, h => by
    rw [recordsFrom_cons]
    refine forall_recordsFrom hadd (fun o' ho' => ho o' (List.mem_cons_of_mem _ ho')) ?_
    intro r hr
    rcases mem_sortInto _ o hr with hr | ⟨s, hs, rfl⟩ | rfl
    · exact h r hr
    · exact hadd s o (h s hs)
    · exact ho o List.mem_cons_self _ _

/-- What is held grows by the occurrences that are sorted in. -/
theorem flatMap_recordsFrom {held : Record → List Occurrence} {keep : Occurrence → Bool}
    (hadd : ∀ (o : Occurrence) (r : Record), held (r.add o) = held r ++ [o].filter keep)
    (hnew : ∀ r : Record, r.uses = [] → r.listed = [] → held r = []) :
    ∀ {os : List Occurrence} {n : Nat} {records : List Record}, Numbered records →
      ((recordsFrom n records os).flatMap held).Perm
        (records.flatMap held ++ os.filter keep)
  | [], n, records, _ => by simp [recordsFrom]
  | o :: os, n, records, h => by
    rw [recordsFrom_cons]
    refine (flatMap_recordsFrom hadd hnew (h.sortInto _ o)).trans ?_
    refine ((flatMap_sortInto _ o (hadd o) hnew h.keys).append_right _).trans ?_
    rw [List.append_assoc, ← List.filter_append, List.singleton_append]

/-- **The records hold the occurrences in the running text as uses.** -/
theorem recordsFrom_uses (os : List Occurrence) :
    ((recordsFrom 0 [] os).flatMap (·.uses)).Perm (os.filter fun o => !o.isListed) := by
  refine flatMap_recordsFrom (fun o r => Record.uses_add o r) (fun r hu _ => hu) ?_
  exact ⟨by simp, rfl, by simp⟩

/-- **The records hold the occurrences in lists as definitions.** -/
theorem recordsFrom_listed (os : List Occurrence) :
    ((recordsFrom 0 [] os).flatMap (·.listed)).Perm (os.filter (·.isListed)) := by
  refine flatMap_recordsFrom (fun o r => Record.listed_add o r) (fun r _ hl => hl) ?_
  exact ⟨by simp, rfl, by simp⟩

theorem numbered_recordsFrom (os : List Occurrence) : Numbered (recordsFrom 0 [] os) :=
  Numbered.recordsFrom ⟨by simp, rfl, by simp⟩

end CiteMarkup
