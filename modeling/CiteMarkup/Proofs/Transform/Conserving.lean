import CiteMarkup.Proofs.Reference.Accounting
/-!
# Renaming and merging conserve occurrences

However many records come to share an identity, the records that are left hold what all of them
held, in the order of the page (`occurrences_conserved`).  A record that is left has the number of
the first one with its new key, and the key belongs to its own name and group.
-/

namespace CiteMarkup

/-! ## 1. The first record of each key -/

/-- The number of the first record with a key. -/
def firstIndex? (records : List Record) (key : Text) : Option Nat :=
  (records.find? (·.key == key)).map (·.index)

section First

variable {records l : List Record} {key : Text} {r : Record}

theorem firstIndex?_append (records l : List Record) (key : Text) :
    firstIndex? (records ++ l) key = (firstIndex? records key).or (firstIndex? l key) := by
  rw [firstIndex?, List.find?_append, Option.map_or]
  rfl

theorem firstIndex?_isSome (hr : r ∈ records) : (firstIndex? records r.key).isSome = true := by
  rw [firstIndex?, Option.isSome_map, List.find?_isSome]
  exact ⟨r, hr, by simp⟩

theorem exists_of_firstIndex? {i : Nat} (h : firstIndex? records key = some i) :
    ∃ r ∈ records, r.key = key ∧ r.index = i := by
  obtain ⟨r, hr, hi⟩ := Option.map_eq_some_iff.mp h
  have hkey : (r.key == key) = true := by simpa using List.find?_some hr
  exact ⟨r, List.mem_of_find?_eq_some hr, eq_of_beq hkey, hi⟩

/-- Of records with keys of their own each is the first with its key. -/
theorem firstIndex?_of_nodup (hn : (records.map (·.key)).Nodup) (hr : r ∈ records) :
    firstIndex? records r.key = some r.index := by
  obtain ⟨i, hi⟩ := Option.isSome_iff_exists.mp (firstIndex?_isSome hr)
  obtain ⟨s, hs, hkey, rfl⟩ := exists_of_firstIndex? hi
  rw [hi, List.inj_on_of_nodup_map hn hs hr hkey]

/-- A record that takes another one in keeps its key and its number. -/
theorem firstIndex?_update (records : List Record) (s : Record) (key : Text) :
    firstIndex? (records.map fun r => if r.key == s.key then r.absorb s else r) key =
      firstIndex? records key := by
  induction records with
  | nil => rfl
  | cons r rs ih =>
    have hsame : (if r.key == s.key then r.absorb s else r).key = r.key ∧
        (if r.key == s.key then r.absorb s else r).index = r.index := by
      split <;> exact ⟨rfl, rfl⟩
    rw [firstIndex?, firstIndex?, List.map_cons, List.find?_cons, List.find?_cons, hsame.1]
    cases hk : r.key == key with
    | true => exact congrArg some hsame.2
    | false => exact ih

theorem firstIndex?_mergeInto (records : List Record) (s : Record) (key : Text) :
    firstIndex? (mergeInto records s) key = firstIndex? (records ++ [s]) key := by
  unfold mergeInto
  split
  · rename_i hany
    rw [firstIndex?_update, firstIndex?_append]
    by_cases hkey : s.key = key
    · -- the record that `s` joins stands in front of it
      obtain ⟨r, hr, hrs⟩ := List.any_eq_true.mp hany
      have hrk : r.key = key := (eq_of_beq hrs).trans hkey
      obtain ⟨i, hi⟩ := Option.isSome_iff_exists.mp (hrk ▸ firstIndex?_isSome hr)
      rw [hi, Option.some_or]
    · have hnone : firstIndex? [s] key = none := by simp [firstIndex?, hkey]
      rw [hnone, Option.or_none]
  · rfl

/-- Merging leaves the first record of each key where it is. -/
theorem firstIndex?_foldl_mergeInto : ∀ l records : List Record,
    firstIndex? (l.foldl mergeInto records) key = firstIndex? (records ++ l) key
  | [], records => by rw [List.foldl_nil, List.append_nil]
  | s :: l, records => by
    rw [List.foldl_cons, firstIndex?_foldl_mergeInto l, firstIndex?_append,
      firstIndex?_mergeInto, ← firstIndex?_append, List.append_assoc, List.singleton_append]

theorem firstIndex?_mergeIdentities (m : Model) (key : Text) :
    firstIndex? m.mergeIdentities.records key = firstIndex? m.records key :=
  firstIndex?_foldl_mergeInto m.records []

end First

/-! ## 2. What is conserved -/

theorem Record.definitions_absorb (r s : Record) :
    (r.absorb s).definitions.Perm (r.definitions ++ s.definitions) := by
  exact sortByStart_perm _ _

/-- What the record holds stands in the order of the page. -/
def Record.InOrder (r : Record) : Prop :=
  r.uses.Pairwise (fun o o' => o.start ≤ o'.start) ∧
    r.listed.Pairwise fun o o' => o.start ≤ o'.start

theorem Record.InOrder.definitions {r : Record} (h : r.InOrder) :
    r.definitions.Pairwise fun o o' => o.start ≤ o'.start := by
  rw [r.definitions_eq]
  exact h.1.filter _

theorem Record.inOrder_absorb (r s : Record) : (r.absorb s).InOrder :=
  ⟨pairwise_sortByStart _ _, pairwise_sortByStart _ _⟩

section Merged

variable {t : Text} {listNames : List Text} {r : Record}

theorem inOrder_ofText (hr : r ∈ (Model.ofText t listNames).records) : r.InOrder :=
  ⟨pairwise_of_sublist (sublist_sorted hr).1, pairwise_of_sublist (sublist_sorted hr).2⟩

/-- A new name leaves what a record holds in its order. -/
theorem inOrder_rename {a b : Renaming}
    (hr : r ∈ ((Model.ofText t listNames).rename a b).1.records) : r.InOrder := by
  have hmem : (r.uses, r.listed) ∈
      ((Model.ofText t listNames).rename a b).1.records.map fun r => (r.uses, r.listed) :=
    List.mem_map_of_mem hr
  rw [rename_map (fun _ => rfl)] at hmem
  obtain ⟨s, hs, heq⟩ := List.mem_map.mp hmem
  obtain ⟨huses, hlisted⟩ := Prod.mk.inj heq
  rw [Record.InOrder, ← huses, ← hlisted]
  exact inOrder_ofText hs

/-- The records that merging leaves stand in the order of their numbers. -/
theorem pairwise_index_merged (t : Text) (listNames : List Text) (a b : Renaming) :
    (((Model.ofText t listNames).rename a b).1.mergeIdentities.records.map (·.index)).Pairwise
      (· < ·) := by
  have hsub := mergeIdentities_indices ((Model.ofText t listNames).rename a b).1
  have hrange : (Model.ofText t listNames).records.map (·.index) =
      List.range (Model.ofText t listNames).records.length :=
    (numbered_recordsFrom _).indices
  rw [rename_map (fun _ => rfl), hrange] at hsub
  exact List.pairwise_lt_range.sublist hsub

end Merged

/-- The records of a page have been given other names (`renamed`), and those that then have one
key have been made one (`merged`): nothing that they hold is lost or doubled. -/
structure Model.Conserved (m renamed merged : Model) : Prop where
  /-- Each record has been given a name, in its place. -/
  indices : renamed.records.map (·.index) = m.records.map (·.index)
  /-- No two records that are left have one key. -/
  keys : (merged.records.map (·.key)).Nodup
  uses : (merged.records.flatMap (·.uses)).Perm (m.records.flatMap (·.uses))
  definitions : (merged.records.flatMap (·.definitions)).Perm (m.records.flatMap (·.definitions))
  listed : (merged.records.flatMap (·.listed)).Perm (m.records.flatMap (·.listed))
  /-- What a record holds stands in the order of the page. -/
  order : ∀ r ∈ merged.records, r.uses.Pairwise (fun o o' => o.start ≤ o'.start) ∧
    r.definitions.Pairwise (fun o o' => o.start ≤ o'.start) ∧
    r.listed.Pairwise fun o o' => o.start ≤ o'.start
  /-- Every new key has its record, -/
  survivors : ∀ r ∈ renamed.records, ∃ q ∈ merged.records, q.key = r.key
  /-- which has the number of the first record with the key. -/
  firsts : ∀ q ∈ merged.records, firstIndex? renamed.records q.key = some q.index
  /-- The records that are left stand in the order of their numbers. -/
  arena : (merged.records.map (·.index)).Pairwise (· < ·)
  /-- A record with a name has the identity of its own name and group for a key. -/
  named : ∀ r ∈ merged.records, r.name.isSome → identity? r.name r.group = some r.key

/-- **Renaming and merging conserve occurrences.** -/
theorem occurrences_conserved (t : Text) (listNames : List Text) (a b : Renaming) :
    let m := Model.ofText t listNames
    let renamed := (m.rename a b).1
    m.Conserved renamed renamed.mergeIdentities := by
  intro m renamed
  have hheld : ∀ {α : Type} {held : Record → List α}, (∀ r : Record, held r.unnamed = held r) →
      renamed.records.flatMap held = m.records.flatMap held := by
    intro α held hunnamed
    rw [List.flatMap_def, List.flatMap_def, rename_map hunnamed]
  have hindices : renamed.records.map (·.index) = m.records.map (·.index) :=
    rename_map (fun _ => rfl) m a b
  refine ⟨hindices, mergeIdentities_keys _, ?_, ?_, ?_, ?_, ?_, ?_, ?_, ?_⟩
  · rw [← hheld fun _ => rfl]
    exact mergeIdentities_held Record.uses_absorb renamed
  · rw [← hheld fun _ => rfl]
    exact mergeIdentities_held Record.definitions_absorb renamed
  · rw [← hheld fun _ => rfl]
    exact mergeIdentities_held Record.listed_absorb renamed
  · intro r hr
    have horder : r.InOrder :=
      forall_mergeIdentities (fun r s _ => r.inOrder_absorb s) renamed
        (fun _ => inOrder_rename) r hr
    exact ⟨horder.1, horder.definitions, horder.2⟩
  · intro r hr
    have hfirst := firstIndex?_isSome hr
    rw [← firstIndex?_mergeIdentities] at hfirst
    obtain ⟨i, hi⟩ := Option.isSome_iff_exists.mp hfirst
    obtain ⟨q, hq, hkey, -⟩ := exists_of_firstIndex? hi
    exact ⟨q, hq, hkey⟩
  · intro q hq
    rw [← firstIndex?_mergeIdentities]
    exact firstIndex?_of_nodup (mergeIdentities_keys _) hq
  · exact pairwise_index_merged t listNames a b
  · intro r hr hname
    obtain ⟨n, hn⟩ := Option.isSome_iff_exists.mp hname
    have hid : r.Identified := forall_mergeIdentities (fun r s hr => hr.of_eq rfl rfl rfl) renamed
      (identified_rename t listNames a b) r hr
    rw [hid.identity?_eq, hn]
    rfl

end CiteMarkup
