import CiteMarkup.Proofs.Reference.Records
import CiteMarkup.Transform.Renaming
/-!
# What renaming, merging and deduplication leave alone

Renaming gives records other names and keys and changes nothing else (`rename_unnamed`).
Merging puts the records of one key together and keeps what they hold (`mergeIdentities_held`).
Deduplication only sets pointers: each record points at the first one that is like it
(`dedupe_records`).
-/

namespace CiteMarkup

/-! ## 1. Renaming -/

/-- A record as renaming sees it: without its name and its key. -/
def Record.unnamed (r : Record) : Record := { r with name := none, key := [] }

@[simp] theorem Record.unnamed_withName (r : Record) (name : Text) :
    (r.withName name).unnamed = r.unnamed := rfl

theorem renameOne_unnamed (names nameless : Renaming) (n : Nat) (r : Record) :
    (renameOne names nameless n r).1.record.unnamed = r.unnamed := by
  unfold renameOne
  split
  · split
    · rfl
    · split <;> rfl
    · rfl
  · split
    · rfl
    · split <;> rfl

theorem renameAll_unnamed (names nameless : Renaming) : ∀ (records : List Record) (n : Nat),
    (renameAll names nameless n records).map (·.record.unnamed) = records.map Record.unnamed
  | [], n => rfl
  | r :: rs, n => by
    simp only [renameAll, List.map_cons, renameOne_unnamed, renameAll_unnamed names nameless rs]

/-- Without spare names the second round does nothing. -/
theorem handOut_nil : ∀ xs : List Renamed, handOut [] xs = xs.map fun x => (x.record, none)
  | [] => rfl
  | x :: xs => by rw [handOut, List.map_cons, handOut_nil xs]

theorem handOut_unnamed : ∀ (renamed : List Renamed) (names : List (Option Text)),
    (handOut names renamed).map (·.1.unnamed) = renamed.map (·.record.unnamed)
  | [], names => by cases names <;> rfl
  | x :: xs, [] => by
    simp only [handOut, List.map_cons, handOut_unnamed xs]
  | x :: xs, n :: ns => by
    rw [handOut]
    split
    · rw [List.map_cons, List.map_cons, handOut_unnamed xs]
    · split
      · rw [List.map_cons, List.map_cons, handOut_unnamed xs, Record.unnamed_withName]
      · rw [List.map_cons, List.map_cons, handOut_unnamed xs]

/-- **Renaming changes names and keys only.** -/
theorem rename_unnamed (m : Model) (names nameless : Renaming) :
    (m.rename names nameless).1.records.map Record.unnamed = m.records.map Record.unnamed := by
  have h : ∀ l : List (Record × Option RenameChange),
      (l.map (·.1)).map Record.unnamed = l.map (·.1.unnamed) := fun l => List.map_map ..
  rw [Model.rename, h, handOut_unnamed, renameAll_unnamed]

/-- What does not depend on names and keys is the same after renaming. -/
theorem rename_map {α : Type} {f : Record → α} (hf : ∀ r, f r.unnamed = f r) (m : Model)
    (names nameless : Renaming) :
    (m.rename names nameless).1.records.map f = m.records.map f := by
  have through : ∀ l : List Record, l.map f = (l.map Record.unnamed).map f := fun l => by
    rw [List.map_map]
    exact List.map_congr_left fun r _ => (hf r).symm
  rw [through, rename_unnamed, ← through]

/-! ## 2. Merging -/

@[simp] theorem Record.key_absorb (r s : Record) : (r.absorb s).key = r.key := rfl

theorem Record.uses_absorb (r s : Record) : (r.absorb s).uses.Perm (r.uses ++ s.uses) :=
  sortByStart_perm _ _

theorem Record.listed_absorb (r s : Record) : (r.absorb s).listed.Perm (r.listed ++ s.listed) :=
  sortByStart_perm _ _

theorem nodup_keys_mergeInto {records : List Record} (s : Record)
    (hn : (records.map (·.key)).Nodup) : ((mergeInto records s).map (·.key)).Nodup := by
  unfold mergeInto
  split
  · rwa [map_key_update (f := fun r => r.absorb s) s.key fun r => Record.key_absorb r s]
  · rename_i h
    exact nodup_keys_append hn (Bool.eq_false_iff.mpr h)

theorem mem_mergeInto {records : List Record} {s r : Record} (h : r ∈ mergeInto records s) :
    r ∈ records ∨ (∃ q ∈ records, r = q.absorb s) ∨ r = s := by
  unfold mergeInto at h
  split at h
  · obtain ⟨q, hq, rfl⟩ := List.mem_map.mp h
    split
    · exact .inr (.inl ⟨q, hq, rfl⟩)
    · exact .inl hq
  · rcases List.mem_append.mp h with h | h
    · exact .inl h
    · exact .inr (.inr (List.mem_singleton.mp h))

theorem indices_mergeInto (records : List Record) (s : Record) :
    ((mergeInto records s).map (·.index)).Sublist (records.map (·.index) ++ [s.index]) := by
  unfold mergeInto
  split
  · have hsame : (records.map fun r => if r.key == s.key then r.absorb s else r).map (·.index) =
        records.map (·.index) := by
      rw [List.map_map]
      refine List.map_congr_left fun r _ => ?_
      simp only [Function.comp]
      split <;> rfl
    rw [hsame]
    exact List.sublist_append_left _ _
  · rw [List.map_append, List.map_singleton]

section Merge

variable {α : Type}

theorem flatMap_mergeInto {held : Record → List α}
    (hf : ∀ r s : Record, (held (r.absorb s)).Perm (held r ++ held s)) {records : List Record}
    (s : Record) (hn : (records.map (·.key)).Nodup) :
    ((mergeInto records s).flatMap held).Perm (records.flatMap held ++ held s) := by
  unfold mergeInto
  split
  · rename_i h
    exact flatMap_update_perm (f := fun r => r.absorb s) (fun r => hf r s) hn h
  · rw [List.flatMap_append, List.flatMap_singleton]

/-- Records that have been merged one after the other hold what all of them held, and have
keys of their own. -/
theorem flatMap_foldl_mergeInto {held : Record → List α}
    (hf : ∀ r s : Record, (held (r.absorb s)).Perm (held r ++ held s)) :
    ∀ (l records : List Record), (records.map (·.key)).Nodup →
      ((l.foldl mergeInto records).flatMap held).Perm (records.flatMap held ++ l.flatMap held) ∧
        ((l.foldl mergeInto records).map (·.key)).Nodup
  | [], records, hn => by simpa using hn
  | s :: l, records, hn => by
    have hs := nodup_keys_mergeInto s hn
    obtain ⟨hp, hk⟩ := flatMap_foldl_mergeInto hf l (mergeInto records s) hs
    refine ⟨?_, hk⟩
    rw [List.foldl_cons, List.flatMap_cons, ← List.append_assoc]
    exact hp.trans ((flatMap_mergeInto hf s hn).append_right _)

theorem foldl_mergeInto_indices : ∀ (l records : List Record),
    ((l.foldl mergeInto records).map (·.index)).Sublist
      (records.map (·.index) ++ l.map (·.index))
  | [], records => by simp
  | s :: l, records => by
    have h := (foldl_mergeInto_indices l (mergeInto records s)).trans
      ((indices_mergeInto records s).append_right _)
    simpa using h

/-- **Merging keeps what the records hold.** -/
theorem mergeIdentities_held {held : Record → List α}
    (hf : ∀ r s : Record, (held (r.absorb s)).Perm (held r ++ held s)) (m : Model) :
    (m.mergeIdentities.records.flatMap held).Perm (m.records.flatMap held) := by
  simpa [Model.mergeIdentities] using (flatMap_foldl_mergeInto hf m.records [] (by simp)).1

end Merge

theorem mergeIdentities_indices (m : Model) :
    (m.mergeIdentities.records.map (·.index)).Sublist (m.records.map (·.index)) := by
  simpa [Model.mergeIdentities] using foldl_mergeInto_indices m.records []

theorem mergeIdentities_keys (m : Model) : (m.mergeIdentities.records.map (·.key)).Nodup :=
  (flatMap_foldl_mergeInto Record.uses_absorb m.records [] (by simp)).2

theorem forall_foldl_mergeInto {motive : Record → Prop}
    (hf : ∀ r s : Record, motive r → motive (r.absorb s)) :
    ∀ (l records : List Record), (∀ r ∈ records, motive r) → (∀ r ∈ l, motive r) →
      ∀ r ∈ l.foldl mergeInto records, motive r
  | [], records, h, _ => h
  | s :: l, records, h, hl => by
    rw [List.foldl_cons]
    refine forall_foldl_mergeInto hf l _ (fun r hr => ?_) fun r hr =>
      hl r (List.mem_cons_of_mem _ hr)
    rcases mem_mergeInto hr with hr | ⟨q, hq, rfl⟩ | rfl
    · exact h r hr
    · exact hf q s (h q hq)
    · exact hl r List.mem_cons_self

/-- What taking in another record does not change holds of all records after merging. -/
theorem forall_mergeIdentities {motive : Record → Prop}
    (hf : ∀ r s : Record, motive r → motive (r.absorb s)) (m : Model)
    (h : ∀ r ∈ m.records, motive r) : ∀ r ∈ m.mergeIdentities.records, motive r :=
  forall_foldl_mergeInto hf m.records [] (fun _ hr => by cases hr) h

/-! ## 3. Deduplication -/

/-- The first record that is like `r`, if `r` is like any. -/
def leader? (records : List Record) (r : Record) : Option Record :=
  r.likeness?.bind fun l => records.find? fun s => s.likeness? = some l

/-- The record pointed at the first one that is like it. -/
def Record.pointed (records : List Record) (r : Record) : Record :=
  { r with canonical := ((leader? records r).map (·.index)).getD r.index }

theorem twin?_eq (before : List Record) (likeness : Option Likeness) :
    twin? (before.map fun r => (r, r.likeness?)) likeness =
      likeness.bind fun l => before.find? fun s => s.likeness? = some l := by
  unfold twin?
  congr 1
  funext l
  rw [List.find?_map, Option.map_map]
  simp [Function.comp_def]

theorem dedupeFrom_eq : ∀ (rs before : List Record), (∀ r ∈ rs, r.canonical = r.index) →
    (dedupeFrom (before.map fun r => (r, r.likeness?)) rs).map (·.1) =
      rs.map (Record.pointed (before ++ rs))
  | [], before, _ => rfl
  | r :: rs, before, h => by
    have htail := dedupeFrom_eq rs (before ++ [r]) fun s hs => h s (List.mem_cons_of_mem _ hs)
    rw [List.map_append, List.map_singleton, List.append_assoc, List.singleton_append] at htail
    have hself : { r with canonical := r.index } = r := by
      have hr := h r List.mem_cons_self
      cases r
      simp only at hr
      subst hr
      rfl
    simp only [dedupeFrom, List.map_cons, htail, List.cons.injEq, and_true, twin?_eq]
    -- whether the first record that is like `r` stands before it or is `r` itself
    unfold Record.pointed leader?
    cases hl : r.likeness? with
    | none => simp [hself]
    | some l =>
      simp only [Option.bind_some, List.find?_append]
      cases hf : before.find? fun s => s.likeness? = some l with
      | none => simp [hl, hself]
      | some s => simp

/-- **Deduplication points each record at the first one that is like it.** -/
theorem dedupe_records (m : Model) (h : ∀ r ∈ m.records, r.canonical = r.index) :
    m.dedupe.1.records = m.records.map (Record.pointed m.records) := by
  simpa [Model.dedupe] using dedupeFrom_eq m.records [] h

theorem likeness?_of_leader? {records : List Record} {r s : Record}
    (h : leader? records r = some s) :
    s ∈ records ∧ s.likeness? = r.likeness? ∧ leader? records s = some s := by
  unfold leader? at h
  obtain ⟨l, hl, hf⟩ := Option.bind_eq_some_iff.mp h
  have hs : s.likeness? = some l := by simpa using List.find?_some hf
  refine ⟨List.mem_of_find?_eq_some hf, by rw [hs, hl], ?_⟩
  rw [leader?, hs]
  exact hf

end CiteMarkup
