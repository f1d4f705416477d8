import CiteMarkup.Proofs.Reference.Referents
import CiteMarkup.Proofs.Transform.Identities
/-!
# Which references a page and a renaming make one

The records of a page tell its references apart exactly if their keys do, and after a renaming
two records become one exactly if they have one key (`merged_iff`).  A key is a name with its
group in front, or a number for a reference without a name, all in one flat text, so the laws
that one would expect of names and groups hold under a condition: no two references share a key
by accident (`references_told_apart`).

They hold outright for pages and renamings whose names and groups are plain.  The numbers that
renaming gives to references that lose their names are new ones then (`namelessKeys_renameAll`).
-/

namespace CiteMarkup

/-! ## 1. Records of one key become one -/

theorem Record.occurrences_absorb (r s : Record) :
    (r.absorb s).occurrences.Perm (r.occurrences ++ s.occurrences) := by
  have hr := r.occurrences_perm
  have hs := s.occurrences_perm
  have hparts := (r.uses_absorb s).append (r.listed_absorb s)
  have hshuffle : ((r.uses ++ s.uses) ++ (r.listed ++ s.listed)).Perm
      ((r.uses ++ r.listed) ++ (s.uses ++ s.listed)) := by
    rw [List.append_assoc, List.append_assoc]
    refine List.Perm.append_left _ ?_
    rw [← List.append_assoc, ← List.append_assoc]
    exact List.perm_append_comm.append_right _
  exact ((r.absorb s).occurrences_perm.trans hparts).trans
    (hshuffle.trans (hr.append hs).symm)

theorem under_mergeInto {records : List Record} (hn : (records.map (·.key)).Nodup) (k : Text)
    (s : Record) : (under k (mergeInto records s)).Perm
      (under k records ++ if s.key = k then s.occurrences else []) := by
  unfold mergeInto
  split
  · rename_i hany
    exact under_update (f := fun r => r.absorb s) (fun r => r.key_absorb s)
      (fun r => r.occurrences_absorb s) hn hany
  · exact .of_eq (under_append_singleton k records s)

/-- Merging moves nothing from one key to another. -/
theorem under_foldl_mergeInto (k : Text) : ∀ {l records : List Record},
    (records.map (·.key)).Nodup →
      (under k (l.foldl mergeInto records)).Perm (under k records ++ under k l) := by
  intro l
  induction l with
  | nil => simp [under]
  | cons s l ih =>
    intro records hn
    rw [List.foldl_cons]
    refine (ih (nodup_keys_mergeInto s hn)).trans ?_
    refine ((under_mergeInto hn k s).append_right _).trans ?_
    rw [List.append_assoc]
    refine List.Perm.append_left _ (.of_eq ?_)
    by_cases hk : s.key = k <;> simp [under, hk]

theorem under_mergeIdentities (m : Model) (k : Text) :
    (under k m.mergeIdentities.records).Perm (under k m.records) := by
  have hempty : (([] : List Record).map (·.key)).Nodup := List.nodup_nil
  simpa [under, Model.mergeIdentities] using under_foldl_mergeInto k (l := m.records) hempty

/-- The record with the key of a record that is merged holds all that was under the key. -/
theorem exists_merged {m : Model} {r : Record} (hr : r ∈ m.records) (hne : r.occurrences ≠ []) :
    ∃ q ∈ m.mergeIdentities.records, q.key = r.key ∧
      q.occurrences.Perm (under r.key m.records) := by
  obtain ⟨o, ho⟩ := List.exists_mem_of_ne_nil _ hne
  have hunder : o ∈ under r.key m.mergeIdentities.records := by
    rw [(under_mergeIdentities m r.key).mem_iff]
    exact List.mem_flatMap.mpr ⟨r, List.mem_filter.mpr ⟨hr, by simp⟩, ho⟩
  obtain ⟨q, hq, -⟩ := List.mem_flatMap.mp hunder
  obtain ⟨hq, hkey⟩ := List.mem_filter.mp hq
  have hkey : q.key = r.key := eq_of_beq hkey
  refine ⟨q, hq, hkey, ?_⟩
  rw [← hkey, ← under_key (mergeIdentities_keys m) hq]
  exact under_mergeIdentities m q.key

/-- Two records are one now: what they held is held together. -/
def Joined (merged : List Record) (r s : Record) : Prop :=
  ∃ q ∈ merged, r.occurrences ⊆ q.occurrences ∧ s.occurrences ⊆ q.occurrences

theorem subset_under {records : List Record} {r : Record} (hr : r ∈ records) :
    r.occurrences ⊆ under r.key records := by
  intro o ho
  exact List.mem_flatMap.mpr ⟨r, List.mem_filter.mpr ⟨hr, by simp⟩, ho⟩

/-- **Records become one exactly if they have one key.** -/
theorem merged_iff {m : Model} {p : Page} {names : List Text} (h : m.Accounts p names)
    (hne : ∀ r ∈ m.records, r.occurrences ≠ []) {r s : Record} (hr : r ∈ m.records)
    (hs : s ∈ m.records) : Joined m.mergeIdentities.records r s ↔ r.key = s.key := by
  have unique : ∀ {a b : Record} {o : Occurrence}, a ∈ m.records → b ∈ m.records →
      o ∈ a.occurrences → o ∈ b.occurrences → a = b := by
    intro a b o ha hb hoa hob
    rw [a.occurrences_perm.mem_iff, List.mem_append] at hoa
    rw [b.occurrences_perm.mem_iff, List.mem_append] at hob
    rcases hoa with hoa | hoa
    · rcases hob with hob | hob
      · exact (h.unique_use ha hb hoa hob rfl).1
      · have hnot := (h.mem_survey_of_use ha hoa).2
        rw [(h.mem_survey_of_listed hb hob).2] at hnot
        cases hnot
    · rcases hob with hob | hob
      · have hnot := (h.mem_survey_of_use hb hob).2
        rw [(h.mem_survey_of_listed ha hoa).2] at hnot
        cases hnot
      · exact (h.unique_listed ha hb hoa hob rfl).1
  -- a record whose occurrences went to `q` has the key of `q`
  have key_of_subset : ∀ {a q : Record}, a ∈ m.records → q ∈ m.mergeIdentities.records →
      a.occurrences ⊆ q.occurrences → a.key = q.key := by
    intro a q ha hq hsub
    obtain ⟨o, ho⟩ := List.exists_mem_of_ne_nil _ (hne a ha)
    have hunder : o ∈ under q.key m.records := by
      rw [← (under_mergeIdentities m q.key).mem_iff, under_key (mergeIdentities_keys m) hq]
      exact hsub ho
    obtain ⟨b, hb, hob⟩ := List.mem_flatMap.mp hunder
    obtain ⟨hb, hkey⟩ := List.mem_filter.mp hb
    rw [unique ha hb ho hob]
    exact eq_of_beq hkey
  constructor
  · rintro ⟨q, hq, hrq, hsq⟩
    rw [key_of_subset hr hq hrq, key_of_subset hs hq hsq]
  · intro hkey
    obtain ⟨q, hq, -, hperm⟩ := exists_merged hr (hne r hr)
    refine ⟨q, hq, fun o ho => hperm.mem_iff.mpr (subset_under hr ho), fun o ho => ?_⟩
    rw [hkey] at hperm
    exact hperm.mem_iff.mpr (subset_under hs ho)

/-- A record that an occurrence has begun holds it. -/
theorem occurrences_ne_nil {t : Text} {listNames : List Text} {r : Record}
    (hr : r ∈ (Model.ofText t listNames).records) : r.occurrences ≠ [] := by
  have hadd : ∀ (r : Record) (o : Occurrence), (r.add o).uses ++ (r.add o).listed ≠ [] := by
    intro r o
    rw [Record.uses_add, Record.listed_add]
    cases hl : o.isListed <;> simp [hl]
  have hheld : r.uses ++ r.listed ≠ [] :=
    forall_recordsFrom (motive := fun r => r.uses ++ r.listed ≠ []) (fun r o _ => hadd r o)
      (fun _ _ _ _ => hadd _ _) (fun _ h => by cases h) r hr
  intro hnil
  have hperm := r.occurrences_perm
  rw [hnil] at hperm
  exact hheld hperm.symm.eq_nil

/-! ## 2. The keys of nameless records -/

/-- The keys of the records without a name. -/
def namelessKeys (records : List Record) : List Text :=
  (records.filter (·.name.isNone)).map (·.key)

/-- What holds of records sorted from plain occurrences, `n` of them nameless: the records
without a name have the numbers below `n`, and no other record has such a key. -/
structure NamelessBelow (n : Nat) (records : List Record) : Prop where
  count : (records.filter (·.name.isNone)).length = n
  nameless : ∀ r ∈ records, r.name = none → ∃ k < n, r.key = namelessIdentity k
  named : ∀ r ∈ records, r.name.isSome → ∀ k, r.key ≠ namelessIdentity k

@[simp] theorem Record.name_add (r : Record) (o : Occurrence) : (r.add o).name = r.name := by
  unfold Record.add
  split <;> rfl

@[simp] theorem Record.group_add (r : Record) (o : Occurrence) : (r.add o).group = r.group := by
  unfold Record.add
  split <;> rfl

theorem name_opening (index : Nat) (key : Text) (o : Occurrence) :
    (Record.opening index key o).name = o.name := Record.name_add _ o

theorem key_opening (index : Nat) (key : Text) (o : Occurrence) :
    (Record.opening index key o).key = key := Record.key_add o _

/-- Taking one more occurrence in changes no name. -/
theorem length_nameless_update (key : Text) (o : Occurrence) (records : List Record) :
    ((records.map fun r => if r.key == key then r.add o else r).filter (·.name.isNone)).length =
      (records.filter (·.name.isNone)).length := by
  rw [List.filter_map, List.length_map]
  congr 2
  funext r
  simp only [Function.comp]
  split
  · rw [Record.name_add]
  · rfl

theorem exists_of_mem_update {key : Text} {o : Occurrence} {records : List Record} {r : Record}
    (h : r ∈ records.map fun r => if r.key == key then r.add o else r) :
    ∃ s ∈ records, r.name = s.name ∧ r.key = s.key := by
  obtain ⟨s, hs, rfl⟩ := List.mem_map.mp h
  refine ⟨s, hs, ?_⟩
  split
  · exact ⟨s.name_add o, s.key_add o⟩
  · exact ⟨rfl, rfl⟩

namespace NamelessBelow

variable {n : Nat} {records : List Record} {o : Occurrence}

/-- A record whose key is there already takes the occurrence in. -/
theorem update (h : NamelessBelow n records) (key : Text) (o : Occurrence) :
    NamelessBelow n (records.map fun r => if r.key == key then r.add o else r) where
  count := (length_nameless_update key o records).trans h.count
  nameless := by
    intro r hr hname
    obtain ⟨s, hs, hnames, hkeys⟩ := exists_of_mem_update hr
    rw [hkeys]
    exact h.nameless s hs (hnames ▸ hname)
  named := by
    intro r hr hname
    obtain ⟨s, hs, hnames, hkeys⟩ := exists_of_mem_update hr
    rw [hkeys]
    exact h.named s hs (hnames ▸ hname)

theorem sortInto_named (h : NamelessBelow n records) (ho : o.name.isSome) {key : Text}
    (hkey : ∀ k, key ≠ namelessIdentity k) : NamelessBelow n (sortInto key o records) := by
  unfold sortInto
  split
  · exact h.update key o
  · have hopening : (Record.opening records.length key o).name.isSome = true := by
      rw [name_opening, ho]
    refine ⟨?_, ?_, ?_⟩
    · have hnone : (Record.opening records.length key o).name.isNone = false := by
        rw [← Option.not_isSome, hopening, Bool.not_true]
      rw [List.filter_append, List.filter_cons_of_neg (by simp [hnone]), List.filter_nil,
        List.append_nil]
      exact h.count
    · intro r hr hname
      rcases List.mem_append.mp hr with hr | hr
      · exact h.nameless r hr hname
      · rw [List.mem_singleton.mp hr] at hname
        rw [hname] at hopening
        cases hopening
    · intro r hr hname
      rcases List.mem_append.mp hr with hr | hr
      · exact h.named r hr hname
      · rw [List.mem_singleton.mp hr, key_opening]
        exact hkey

/-- The next number is new, so the occurrence begins a record. -/
theorem sortInto_nameless (h : NamelessBelow n records) (ho : o.name = none) :
    NamelessBelow (n + 1) (sortInto (namelessIdentity n) o records) := by
  have hnew : (records.any fun r => r.key == namelessIdentity n) = false := by
    rw [List.any_eq_false]
    intro r hr hkey
    have hkey : r.key = namelessIdentity n := eq_of_beq hkey
    cases hname : r.name with
    | some name => exact h.named r hr (by rw [hname]; rfl) n hkey
    | none =>
      obtain ⟨k, hk, heq⟩ := h.nameless r hr hname
      have := namelessIdentity_inj (hkey.symm.trans heq)
      omega
  have hopening : (Record.opening records.length (namelessIdentity n) o).name = none := by
    rw [name_opening, ho]
  rw [sortInto, hnew]
  refine ⟨?_, ?_, ?_⟩
  · simp [List.filter_append, hopening, h.count]
  · intro r hr hname
    rcases List.mem_append.mp hr with hr | hr
    · obtain ⟨k, hk, heq⟩ := h.nameless r hr hname
      exact ⟨k, by omega, heq⟩
    · rw [List.mem_singleton.mp hr, key_opening]
      exact ⟨n, by omega, rfl⟩
  · intro r hr hname
    rcases List.mem_append.mp hr with hr | hr
    · exact h.named r hr hname
    · rw [List.mem_singleton.mp hr, hopening] at hname
      cases hname

/-- **Nameless references of a plain page are numbered from zero on.** -/
theorem recordsFrom {os : List Occurrence} (ho : ∀ o ∈ os, o.name ≠ some [])
    (hplain : ∀ o ∈ os, PlainlyKeyed o.name o.group) (h : NamelessBelow n records) :
    ∃ n', NamelessBelow n' (recordsFrom n records os) := by
  induction os generalizing n records with
  | nil => exact ⟨n, h⟩
  | cons o os ih =>
    have hrest := fun a ha => ho a (List.mem_cons_of_mem o ha)
    have hrestPlain := fun a ha => hplain a (List.mem_cons_of_mem o ha)
    rw [recordsFrom_cons, keyOf_eq (ho o List.mem_cons_self) n]
    cases hname : o.name with
    | none =>
      simp only [Occurrence.referentAt, hname, Referent.key]
      exact ih hrest hrestPlain (h.sortInto_nameless hname)
    | some name =>
      simp only [Occurrence.referentAt, hname, Referent.key]
      refine ih hrest hrestPlain (h.sortInto_named (by rw [hname]; rfl) fun k => ?_)
      have hreferent : (Referent.named name o.group).Plain := by
        have := hplain o List.mem_cons_self
        rwa [hname] at this
      exact key_ne_namelessIdentity hreferent k

end NamelessBelow

/-! ## 3. The keys that renaming gives -/

theorem Dictionary.mem_of_get? {α : Type} {d : Dictionary α} {key : Text} {v : α}
    (h : d.get? key = some v) : (key, v) ∈ d := by
  obtain ⟨before, after, rfl, -⟩ := List.lookup_eq_some_iff.mp h
  simp

/-- A name that a renaming can give. -/
def Offers (names : Renaming) (new : Text) : Prop := ∃ key, (key, some new) ∈ names

theorem mem_of_newNameOf? {names : Renaming} {r : Record} {v : Option Text}
    (h : newNameOf? names r = some v) : ∃ key, (key, v) ∈ names := by
  unfold newNameOf? at h
  cases hkey : names.get? r.key with
  | some w =>
    rw [hkey] at h
    obtain rfl : w = v := Option.some.inj h
    exact ⟨r.key, Dictionary.mem_of_get? hkey⟩
  | none =>
    rw [hkey] at h
    obtain ⟨name, -, hname⟩ := Option.bind_eq_some_iff.mp h
    exact ⟨name, Dictionary.mem_of_get? hname⟩

section Rename

variable {names nameless : Renaming}

/-- The first round leaves a record as it is, takes its name, or gives it one that is offered. -/
theorem renameOne_cases (names nameless : Renaming) (n : Nat) (r : Record) :
    ((renameOne names nameless n r).1.record = r ∧ (renameOne names nameless n r).2 = n) ∨
      ((renameOne names nameless n r).1.record = r.withoutName n ∧
        (renameOne names nameless n r).2 = n + 1) ∨
      ∃ new, (Offers names new ∨ Offers nameless new) ∧
        (renameOne names nameless n r).1.record = r.withName new ∧
        (renameOne names nameless n r).2 = n := by
  unfold renameOne
  split
  · split
    · exact .inr (.inl ⟨rfl, rfl⟩)
    · rename_i new hnew
      split
      · exact .inl ⟨rfl, rfl⟩
      · exact .inr (.inr ⟨new, .inl (mem_of_newNameOf? hnew), rfl, rfl⟩)
    · exact .inl ⟨rfl, rfl⟩
  · split
    · exact .inl ⟨rfl, rfl⟩
    · rename_i v hv
      split
      · rename_i new hnew
        obtain ⟨w, rfl, hw⟩ := Option.bind_eq_some_iff.mp hnew
        obtain ⟨rfl, -⟩ := nonempty?_eq_some.mp hw
        exact .inr (.inr ⟨w, .inr ⟨r.key, Dictionary.mem_of_get? hv⟩, rfl, rfl⟩)
      · exact .inl ⟨rfl, rfl⟩

theorem namelessKeys_cons (r : Record) (rs : List Record) :
    namelessKeys (r :: rs) = (if r.name.isNone then [r.key] else []) ++ namelessKeys rs := by
  by_cases h : r.name.isNone = true <;> simp [namelessKeys, h]

theorem namelessKeys_cons_of_nameless {r : Record} (h : r.name.isNone = true) (rs : List Record) :
    namelessKeys (r :: rs) = r.key :: namelessKeys rs := by
  rw [namelessKeys_cons, if_pos h, List.singleton_append]

theorem namelessKeys_cons_of_named {r : Record} (h : ¬ r.name.isNone = true) (rs : List Record) :
    namelessKeys (r :: rs) = namelessKeys rs := by
  rw [namelessKeys_cons, if_neg h, List.nil_append]

/-- The keys of the references without a name, when a counter at `n` has handed out numbers: no two
are the same, and each is an old one or has a number from `n` on. -/
structure NumberedFrom (n : Nat) (old new : List Text) : Prop where
  nodup : new.Nodup
  origin : ∀ key ∈ new, key ∈ old ∨ ∃ k, n ≤ k ∧ key = namelessIdentity k

namespace NumberedFrom

variable {n : Nat} {old old' new : List Text} {key : Text}

theorem mono (h : NumberedFrom n old new) (hsub : old ⊆ old') : NumberedFrom n old' new :=
  ⟨h.nodup, fun key hkey => (h.origin key hkey).imp_left fun hold => hsub hold⟩

/-- A key that is kept is none of the later ones, which are old or have greater numbers. -/
theorem keep (h : NumberedFrom n old new) (hnew : key ∉ old)
    (hbelow : ∃ k < n, key = namelessIdentity k) : NumberedFrom n (key :: old) (key :: new) := by
  refine ⟨List.nodup_cons.mpr ⟨fun hmem => ?_, h.nodup⟩, fun other hother => ?_⟩
  · rcases h.origin key hmem with hold | ⟨k, hk, heq⟩
    · exact hnew hold
    · obtain ⟨j, hj, hjeq⟩ := hbelow
      have := namelessIdentity_inj (hjeq.symm.trans heq)
      omega
  · rcases List.mem_cons.mp hother with rfl | hmem
    · exact .inl List.mem_cons_self
    · exact (h.mono (List.subset_cons_self key old)).origin other hmem

/-- The number that is handed out is the next one, and later numbers are greater. -/
theorem handOut (h : NumberedFrom (n + 1) old new)
    (hbelow : ∀ key ∈ old, ∃ k < n, key = namelessIdentity k) :
    NumberedFrom n old (namelessIdentity n :: new) := by
  refine ⟨List.nodup_cons.mpr ⟨fun hmem => ?_, h.nodup⟩, fun other hother => ?_⟩
  · rcases h.origin _ hmem with hold | ⟨k, hk, heq⟩
    · obtain ⟨k, hk, heq⟩ := hbelow _ hold
      have := namelessIdentity_inj heq
      omega
    · have := namelessIdentity_inj heq
      omega
  · rcases List.mem_cons.mp hother with rfl | hmem
    · exact .inr ⟨n, Nat.le_refl n, rfl⟩
    · refine (h.origin other hmem).imp_right ?_
      rintro ⟨k, hk, heq⟩
      exact ⟨k, by omega, heq⟩

end NumberedFrom

/-- **The references that lose their names get new numbers.**  The invariant is that the
nameless keys still to come lie below the counter, and those handed out at or above it. -/
theorem namelessKeys_renameAll (names nameless : Renaming) {records : List Record} {n : Nat}
    (hn : (namelessKeys records).Nodup)
    (hbelow : ∀ key ∈ namelessKeys records, ∃ k < n, key = namelessIdentity k) :
    NumberedFrom n (namelessKeys records)
      (namelessKeys ((renameAll names nameless n records).map (·.record))) := by
  induction records generalizing n with
  | nil => exact ⟨List.nodup_nil, fun key hkey => absurd hkey List.not_mem_nil⟩
  | cons r rs ih =>
    have hsub : namelessKeys rs ⊆ namelessKeys (r :: rs) := by
      rw [namelessKeys_cons]
      exact List.subset_append_right _ _
    have hnrs : (namelessKeys rs).Nodup := by
      rw [namelessKeys_cons] at hn
      exact hn.of_append_right
    have hrest : ∀ key ∈ namelessKeys rs, ∃ k < n, key = namelessIdentity k :=
      fun key hkey => hbelow key (hsub hkey)
    rw [renameAll, List.map_cons]
    rcases renameOne_cases names nameless n r with ⟨hr, hcount⟩ | ⟨hr, hcount⟩ |
      ⟨new, -, hr, hcount⟩
    · -- the record is as it was
      rw [hr, hcount]
      by_cases hname : r.name.isNone = true
      · rw [namelessKeys_cons_of_nameless hname] at hn hbelow
        rw [namelessKeys_cons_of_nameless hname, namelessKeys_cons_of_nameless hname]
        exact (ih hnrs hrest).keep (List.nodup_cons.mp hn).1 (hbelow r.key List.mem_cons_self)
      · rw [namelessKeys_cons_of_named hname, namelessKeys_cons_of_named hname]
        exact ih hnrs hrest
    · -- the record loses its name
      have hnext : ∀ key ∈ namelessKeys rs, ∃ k < n + 1, key = namelessIdentity k :=
        fun key hkey => (hrest key hkey).imp fun k hk => ⟨by omega, hk.2⟩
      rw [hr, hcount, namelessKeys_cons_of_nameless (r := r.withoutName n) rfl]
      exact ((ih hnrs hnext).handOut hrest).mono hsub
    · -- the record has a name, and with it no nameless key
      rw [hr, hcount, namelessKeys_cons_of_named (r := r.withName new) (by simp [Record.withName])]
      exact (ih hnrs hrest).mono hsub

/-- The second round gives names to records that had none, and takes none. -/
theorem namelessKeys_handOut (xs : List Renamed) (spare : List (Option Text)) :
    (namelessKeys ((handOut spare xs).map (·.1))).Sublist
      (namelessKeys (xs.map (·.record))) := by
  have keep : ∀ {r : Record} {l l' : List Record}, (namelessKeys l).Sublist (namelessKeys l') →
      (namelessKeys (r :: l)).Sublist (namelessKeys (r :: l')) := by
    intro r l l' h
    rw [namelessKeys_cons, namelessKeys_cons]
    exact h.append_left _
  induction xs generalizing spare with
  | nil => cases spare <;> simp [handOut, namelessKeys]
  | cons x xs ih =>
    cases spare with
    | nil => exact keep (ih [])
    | cons s spare =>
      rw [handOut]
      split
      · exact keep (ih (s :: spare))
      · split
        · rename_i new _
          rw [List.map_cons, List.map_cons, namelessKeys_cons, namelessKeys_cons,
            if_neg (by simp [Record.withName]), List.nil_append]
          exact (ih spare).trans (List.sublist_append_right _ _)
        · exact keep (ih spare)

/-! ## 4. Plain names stay plain -/

theorem PlainlyKeyed.withName {name group : Option Text} (h : PlainlyKeyed name group)
    {new : Text} (hnew : PlainName new) : PlainlyKeyed (some new) group := by
  cases group with
  | none =>
    intro n hn
    obtain rfl := Option.some.inj hn
    exact hnew
  | some group => exact h

theorem PlainlyKeyed.withoutName {name group : Option Text} (h : PlainlyKeyed name group) :
    PlainlyKeyed none group := by
  cases group with
  | none =>
    intro n hn
    cases hn
  | some group => exact h

theorem plainlyKeyed_renameAll {records : List Record}
    (hplain : ∀ new, Offers names new ∨ Offers nameless new → PlainName new)
    (h : ∀ r ∈ records, PlainlyKeyed r.name r.group) (n : Nat) :
    ∀ x ∈ renameAll names nameless n records, PlainlyKeyed x.record.name x.record.group := by
  induction records generalizing n with
  | nil =>
    intro x hx
    cases hx
  | cons r rs ih =>
    have hfirst : PlainlyKeyed (renameOne names nameless n r).1.record.name
        (renameOne names nameless n r).1.record.group := by
      have hr := h r List.mem_cons_self
      rcases renameOne_cases names nameless n r with ⟨heq, -⟩ | ⟨heq, -⟩ |
        ⟨new, hnew, heq, -⟩
      · rwa [heq]
      · rw [heq]
        exact hr.withoutName
      · rw [heq]
        exact hr.withName (hplain new hnew)
    intro x hx
    rw [renameAll] at hx
    rcases List.mem_cons.mp hx with rfl | hx
    · exact hfirst
    · exact ih (fun s hs => h s (List.mem_cons_of_mem _ hs)) _ x hx

theorem plainlyKeyed_handOut {xs : List Renamed} {spare : List (Option Text)}
    (hplain : ∀ new, some new ∈ spare → PlainName new)
    (h : ∀ x ∈ xs, PlainlyKeyed x.record.name x.record.group) :
    ∀ y ∈ handOut spare xs, PlainlyKeyed y.1.name y.1.group := by
  induction xs generalizing spare with
  | nil => cases spare <;> simp [handOut]
  | cons x xs ih =>
    intro y hy
    have hx := h x List.mem_cons_self
    have hxs := fun z hz => h z (List.mem_cons_of_mem x hz)
    cases spare with
    | nil =>
      rw [handOut] at hy
      rcases List.mem_cons.mp hy with rfl | hy
      · exact hx
      · exact ih (by simp) hxs y hy
    | cons s spare =>
      have hspare := fun new hnew => hplain new (List.mem_cons_of_mem s hnew)
      rw [handOut] at hy
      split at hy
      · rcases List.mem_cons.mp hy with rfl | hy
        · exact hx
        · exact ih hplain hxs y hy
      · split at hy
        · rename_i new hnew
          rcases List.mem_cons.mp hy with rfl | hy
          · obtain ⟨w, rfl, hw⟩ := Option.bind_eq_some_iff.mp hnew
            obtain ⟨rfl, -⟩ := nonempty?_eq_some.mp hw
            exact hx.withName (hplain w List.mem_cons_self)
          · exact ih hspare hxs y hy
        · rcases List.mem_cons.mp hy with rfl | hy
          · exact hx
          · exact ih hspare hxs y hy

end Rename

/-! ## 5. The laws of names and groups -/

/-- The occurrences of a page in its order. -/
def Page.occurrences (p : Page) (listNames : List Text) : List Occurrence :=
  sortByStart Occurrence.start (p.survey listNames).occurrences

/-- The references that a page means. -/
def Page.referents (p : Page) (listNames : List Text) : List Referent :=
  (resolved 0 (p.occurrences listNames)).map (·.2)

/-- Two different records have become one exactly if both have names, and names and groups
agree. -/
def MergesByName (renamed merged : List Record) : Prop :=
  ∀ r ∈ renamed, ∀ s ∈ renamed, r ≠ s →
    (Joined merged r s ↔ r.name.isSome ∧ r.name = s.name ∧ r.group = s.group)

/-- Different records have a key in common only by their names and groups. -/
def RecordKeysApart (records : List Record) : Prop :=
  ∀ r ∈ records, ∀ s ∈ records, r ≠ s → r.key = s.key →
    r.name.isSome ∧ r.name = s.name ∧ r.group = s.group

instance (records : List Record) : Decidable (RecordKeysApart records) :=
  inferInstanceAs (Decidable (∀ r ∈ records, ∀ s ∈ records, r ≠ s → r.key = s.key →
    r.name.isSome ∧ r.name = s.name ∧ r.group = s.group))

/-- Plain keys: those of nameless records are numbers, each once. -/
structure PlainKeys (records : List Record) : Prop where
  identified : ∀ r ∈ records, r.Identified
  plain : ∀ r ∈ records, PlainlyKeyed r.name r.group
  nodup : (namelessKeys records).Nodup
  nameless : ∀ key ∈ namelessKeys records, ∃ k, key = namelessIdentity k

namespace PlainKeys

variable {records : List Record} (h : PlainKeys records)
include h

theorem exists_number {r : Record} (hr : r ∈ records) (hname : r.name = none) :
    ∃ k, r.key = namelessIdentity k :=
  h.nameless _ (List.mem_map_of_mem (List.mem_filter.mpr ⟨hr, by rw [hname]; rfl⟩))

/-- A named record has the key of a plain referent. -/
theorem plain_referent {r : Record} (hr : r ∈ records) {name : Text}
    (hname : r.name = some name) :
    (Referent.named name r.group).Plain ∧ r.key = (Referent.named name r.group).key := by
  have hplain := h.plain r hr
  rw [hname] at hplain
  exact ⟨hplain, (h.identified r hr name hname).2⟩

theorem key_ne {r s : Record} (hr : r ∈ records) (hs : s ∈ records) {name : Text}
    (hrn : r.name = some name) (hsn : s.name = none) : r.key ≠ s.key := by
  obtain ⟨k, hk⟩ := h.exists_number hs hsn
  obtain ⟨hplain, hkey⟩ := h.plain_referent hr hrn
  rw [hk, hkey]
  exact key_ne_namelessIdentity hplain k

/-- **Plain keys are apart.** -/
theorem apart : RecordKeysApart records := by
  intro r hr s hs hne hkey
  cases hrn : r.name with
  | none =>
    cases hsn : s.name with
    | none =>
      have hmem : ∀ q ∈ records, q.name = none → q ∈ records.filter (·.name.isNone) :=
        fun q hq hname => List.mem_filter.mpr ⟨hq, by rw [hname]; rfl⟩
      exact absurd (List.inj_on_of_nodup_map h.nodup (hmem r hr hrn) (hmem s hs hsn) hkey) hne
    | some name => exact absurd hkey.symm (h.key_ne hs hr hsn hrn)
  | some name =>
    cases hsn : s.name with
    | none => exact absurd hkey (h.key_ne hr hs hrn hsn)
    | some name' =>
      obtain ⟨hplain, hrk⟩ := h.plain_referent hr hrn
      obtain ⟨hplain', hsk⟩ := h.plain_referent hs hsn
      have heq := Referent.eq_of_key_eq hplain hplain' (by rw [← hrk, ← hsk, hkey])
      obtain ⟨rfl, hgroups⟩ := Referent.named.inj heq
      exact ⟨rfl, rfl, hgroups⟩

end PlainKeys

section Laws

variable (t : Text) (listNames : List Text) (a b : Renaming)

theorem name_ne_of_mem_occurrences :
    ∀ o ∈ (Page.ofText t).occurrences listNames, o.name ≠ some [] := fun _ ho =>
  Page.name_ne_of_mem_survey ((sortByStart_perm _ _).mem_iff.mp ho)

theorem nodup_occurrences : ((Page.ofText t).occurrences listNames).Nodup :=
  (sortByStart_perm _ _).nodup_iff.mpr
    (List.Nodup.of_map _ (Page.nodup_seats_survey (Page.ofText t) listNames))

/-- The records of a page tell its references apart exactly if their keys do. -/
theorem tellsApart_ofText_iff :
    TellsApart ((Page.ofText t).occurrences listNames) (Model.ofText t listNames).records ↔
      KeysApart ((Page.ofText t).referents listNames) :=
  tellsApart_recordsFrom_iff (name_ne_of_mem_occurrences t listNames)
    (nodup_occurrences t listNames)

theorem occurrences_ne_nil_of_rename {r : Record}
    (hr : r ∈ ((Model.ofText t listNames).rename a b).1.records) : r.occurrences ≠ [] := by
  have hheld : r.occurrences ∈
      ((Model.ofText t listNames).rename a b).1.records.map (·.occurrences) :=
    List.mem_map_of_mem hr
  rw [rename_map (f := (·.occurrences)) fun _ => rfl] at hheld
  obtain ⟨s, hs, heq⟩ := List.mem_map.mp hheld
  rw [← heq]
  exact occurrences_ne_nil hs

/-- Renamed records merge by name and group exactly if their keys are apart. -/
theorem mergesByName_iff :
    MergesByName ((Model.ofText t listNames).rename a b).1.records
        ((Model.ofText t listNames).rename a b).1.mergeIdentities.records ↔
      RecordKeysApart ((Model.ofText t listNames).rename a b).1.records := by
  have joined := fun {r s : Record} hr hs =>
    merged_iff (r := r) (s := s) ((accounts_ofText t listNames).rename a b)
      (fun _ hr => occurrences_ne_nil_of_rename t listNames a b hr) hr hs
  constructor
  · intro h r hr s hs hne hkey
    exact (h r hr s hs hne).mp ((joined hr hs).mpr hkey)
  · intro h r hr s hs hne
    rw [joined hr hs]
    refine ⟨h r hr s hs hne, ?_⟩
    rintro ⟨hname, hnames, hgroups⟩
    obtain ⟨name, hname⟩ := Option.isSome_iff_exists.mp hname
    rw [(identified_rename t listNames a b r hr name hname).2,
      (identified_rename t listNames a b s hs name (hnames ▸ hname)).2, hgroups]

theorem plainlyKeyed_ofText
    (hpage : ∀ o ∈ (Page.ofText t).occurrences listNames, PlainlyKeyed o.name o.group) :
    ∀ r ∈ (Model.ofText t listNames).records, PlainlyKeyed r.name r.group := by
  refine forall_recordsFrom (motive := fun r => PlainlyKeyed r.name r.group)
    (fun r o hr => ?_) (fun o ho index n => ?_) (fun _ hr => by cases hr)
  · rwa [Record.name_add, Record.group_add]
  · rw [Record.opening, Record.name_add, Record.group_add]
    exact hpage o ho

/-- The keys of a plain page stay plain under a plain renaming. -/
theorem plainKeys_rename
    (hpage : ∀ o ∈ (Page.ofText t).occurrences listNames, PlainlyKeyed o.name o.group)
    (hnames : ∀ new, Offers a new ∨ Offers b new → PlainName new) :
    PlainKeys ((Model.ofText t listNames).rename a b).1.records := by
  -- the nameless records of the page have the numbers below their count
  have hnone : NamelessBelow 0 [] := ⟨rfl, by simp, by simp⟩
  obtain ⟨n, hbelow⟩ : ∃ n, NamelessBelow n (Model.ofText t listNames).records :=
    hnone.recordsFrom (name_ne_of_mem_occurrences t listNames) hpage
  have hkeysBelow : ∀ key ∈ namelessKeys (Model.ofText t listNames).records,
      ∃ k < n, key = namelessIdentity k := by
    intro key hkey
    obtain ⟨r, hr, rfl⟩ := List.mem_map.mp hkey
    obtain ⟨hr, hname⟩ := List.mem_filter.mp hr
    exact hbelow.nameless r hr (by simpa using hname)
  have hnodup : (namelessKeys (Model.ofText t listNames).records).Nodup :=
    List.Nodup.sublist (List.filter_sublist.map _) (numbered_recordsFrom _).keys
  obtain ⟨hfirst, hkeys⟩ := namelessKeys_renameAll (effective a) b hnodup hkeysBelow
  have hsub := namelessKeys_handOut
    (renameAll (effective a) b n (Model.ofText t listNames).records)
    (spareNames b (Model.ofText t listNames).records)
  have hrecords : ((Model.ofText t listNames).rename a b).1.records =
      (handOut (spareNames b (Model.ofText t listNames).records)
        (renameAll (effective a) b n (Model.ofText t listNames).records)).map (·.1) := by
    rw [Model.rename, hbelow.count]
  rw [← hrecords] at hsub
  refine ⟨identified_rename t listNames a b, ?_, hfirst.sublist hsub, ?_⟩
  · have heffective : ∀ new, Offers (effective a) new ∨ Offers b new → PlainName new := by
      rintro new (⟨key, hmem⟩ | hnew)
      · exact hnames new (.inl ⟨key, List.mem_of_mem_filter hmem⟩)
      · exact hnames new (.inr hnew)
    have hspare : ∀ new, some new ∈ spareNames b (Model.ofText t listNames).records →
        PlainName new := by
      intro new hnew
      obtain ⟨⟨key, v⟩, hmem, rfl⟩ := List.mem_map.mp hnew
      exact hnames new (.inr ⟨key, List.mem_of_mem_filter hmem⟩)
    intro r hr
    rw [hrecords] at hr
    obtain ⟨y, hy, rfl⟩ := List.mem_map.mp hr
    exact plainlyKeyed_handOut hspare
      (plainlyKeyed_renameAll heffective (plainlyKeyed_ofText t listNames hpage) n) y hy
  · intro key hkey
    rcases hkeys key (hsub.subset hkey) with h | ⟨k, -, heq⟩
    · obtain ⟨k, -, heq⟩ := hkeysBelow key h
      exact ⟨k, heq⟩
    · exact ⟨k, heq⟩

/-- The referents of a plain page are apart. -/
theorem keysApart_of_plain
    (hpage : ∀ o ∈ (Page.ofText t).occurrences listNames, PlainlyKeyed o.name o.group) :
    KeysApart ((Page.ofText t).referents listNames) := by
  have plain : ∀ l ∈ (Page.ofText t).referents listNames, l.Plain := by
    intro l hl
    obtain ⟨⟨o, l⟩, hmem, rfl⟩ := List.mem_map.mp hl
    have ho := hpage o (mem_of_mem_resolved hmem)
    cases hname : o.name with
    | none =>
      obtain ⟨k, -, rfl⟩ := referent_of_nameless hmem hname
      trivial
    | some name =>
      rw [hname] at ho
      rw [referent_of_name hmem hname]
      exact ho
  intro l hl l' hl' heq
  exact Referent.eq_of_key_eq (plain l hl) (plain l' hl') heq

end Laws

/-- **References are told apart by name and group exactly if their keys are apart.**  This holds
of the records of a page, and of the records that a renaming makes one; a page and a renaming
with plain names and groups keep the keys apart. -/
theorem references_told_apart (t : Text) (listNames : List Text) (a b : Renaming) :
    let m := Model.ofText t listNames
    let renamed := (m.rename a b).1
    let occurrences := (Page.ofText t).occurrences listNames
    (TellsApart occurrences m.records ↔ KeysApart ((Page.ofText t).referents listNames)) ∧
      (MergesByName renamed.records renamed.mergeIdentities.records ↔
        RecordKeysApart renamed.records) ∧
      ((∀ o ∈ occurrences, PlainlyKeyed o.name o.group) →
        TellsApart occurrences m.records ∧
          ((∀ new, Offers a new ∨ Offers b new → PlainName new) →
            MergesByName renamed.records renamed.mergeIdentities.records)) := by
  intro m renamed occurrences
  have hread := tellsApart_ofText_iff t listNames
  refine ⟨hread, mergesByName_iff t listNames a b, fun hpage => ?_⟩
  refine ⟨hread.mpr (keysApart_of_plain t listNames hpage), fun hnames => ?_⟩
  exact (mergesByName_iff t listNames a b).mpr
    (plainKeys_rename t listNames a b hpage hnames).apart

/-- A page with one name in a group and outside of it, where the name outside is taken away: the
reference that loses its name stays apart from the nameless one. -/
theorem references_told_apart_by_group :
    let t := "<ref name=\"x\" group=\"g\" /><ref name=\"x\" /><ref>b</ref>".toList
    let m := Model.ofText t defaultListNames
    let renamed := (m.rename [("x".toList, none), ("g::x".toList, some "y".toList)] []).1
    TellsApart ((Page.ofText t).occurrences defaultListNames) m.records ∧
      MergesByName renamed.records renamed.mergeIdentities.records := by
  intro t m renamed
  have hplain : ∀ o ∈ (Page.ofText t).occurrences defaultListNames,
      PlainlyKeyed o.name o.group := by
    decide +kernel
  have hoffers : ∀ new, Offers [("x".toList, none), ("g::x".toList, some "y".toList)] new ∨
      Offers [] new → PlainName new := by
    rintro new (⟨key, hmem⟩ | ⟨key, hmem⟩)
    · simp only [List.mem_cons, Prod.mk.injEq, reduceCtorEq, and_false, Option.some.injEq,
        List.not_mem_nil, or_false, false_or] at hmem
      rw [hmem.2]
      decide
    · cases hmem
  obtain ⟨-, -, h⟩ := references_told_apart t defaultListNames
    [("x".toList, none), ("g::x".toList, some "y".toList)] []
  exact ⟨(h hplain).1, (h hplain).2 hoffers⟩

/-- The reference `g::x` and the reference `x` of the group `g` share a key, so a page that has
both holds them in one record. -/
theorem references_confused :
    ¬ TellsApart
      ((Page.ofText "<ref name=\"g::x\" /><ref name=\"x\" group=\"g\" />".toList).occurrences
        defaultListNames)
      (Model.ofText "<ref name=\"g::x\" /><ref name=\"x\" group=\"g\" />".toList
        defaultListNames).records := by
  rw [tellsApart_ofText_iff]
  decide +kernel

end CiteMarkup
