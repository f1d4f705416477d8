import CiteMarkup.Proofs.Transform.Merging
/-!
# References of plain pages

A record takes its name and its group from its first occurrence.  On a page with plain names and
groups they are those of all its occurrences, or else the record is one of a single occurrence
without a name (`coherent_ofText`).  Renaming references without taking names away, and merging
them, leaves this so as long as the new names are plain (`coherent_rename`,
`Model.coherent_mergeIdentities`).
-/

namespace CiteMarkup

/-- The occurrences of a named record have names and its group; a record without a name has one
occurrence, without a name. -/
structure Record.IsCoherent (r : Record) : Prop where
  named : r.name.isSome → ∀ o ∈ r.occurrences, o.name.isSome ∧ o.group = r.group
  nameless : r.name = none → ∃ o, o.name = none ∧ ∀ o' ∈ r.occurrences, o' = o

/-! ## 1. Reading -/

/-- A record has its name and its group from one of its occurrences. -/
theorem exists_eponym {os : List Occurrence} :
    ∀ r ∈ recordsFrom 0 [] os, ∃ o ∈ r.occurrences, o.name = r.name ∧ o.group = r.group := by
  refine forall_recordsFrom
    (motive := fun r => ∃ o ∈ r.occurrences, o.name = r.name ∧ o.group = r.group)
    ?_ ?_ (fun _ hr => by cases hr)
  · rintro r o ⟨o', ho', hname, hgroup⟩
    refine ⟨o', ?_, by rw [Record.name_add, hname], by rw [Record.group_add, hgroup]⟩
    exact (Record.occurrences_add r o).mem_iff.mpr (List.mem_append_left _ ho')
  · intro o _ index n
    refine ⟨o, (Record.occurrences_opening index _ o).mem_iff.mpr List.mem_cons_self, ?_, ?_⟩
    · exact (name_opening index _ o).symm
    · rw [Record.opening, Record.group_add]

/-- **The records of a plain page are coherent.** -/
theorem coherent_ofText (t : Text) (listNames : List Text)
    (hpage : ∀ o ∈ (Page.ofText t).occurrences listNames, PlainlyKeyed o.name o.group) :
    ∀ r ∈ (Model.ofText t listNames).records, r.IsCoherent := by
  intro r hr
  have happart := (tellsApart_ofText_iff t listNames).mpr (keysApart_of_plain t listNames hpage)
  have hmem : ∀ o ∈ r.occurrences, o ∈ (Page.ofText t).occurrences listNames := fun o ho => by
    obtain ⟨l, hl, -⟩ :=
      exists_referent_of_mem (name_ne_of_mem_occurrences t listNames) hr ho
    exact mem_of_mem_resolved hl
  have alone : ∀ o ∈ r.occurrences, o.name = none → ∀ o' ∈ r.occurrences, o' = o := by
    intro o ho hname o' ho'
    obtain ⟨s, -, hs, hunique⟩ := happart.nameless o (hmem o ho) hname
    rw [hunique r hr ho, hs] at ho'
    exact List.mem_singleton.mp ho'
  obtain ⟨o, ho, hname, hgroup⟩ := exists_eponym r hr
  constructor
  · intro hsome o' ho'
    have hsome' : o'.name.isSome := by
      by_contra hnone
      rw [← hname, alone o' ho' (by simpa using hnone) o ho] at hsome
      exact hnone hsome
    obtain ⟨-, hgroups⟩ := (happart.named o' (hmem o' ho') o (hmem o ho) hsome'
      (hname ▸ hsome)).mp ⟨r, hr, ho', ho⟩
    exact ⟨hsome', hgroups.trans hgroup⟩
  · intro hnone
    exact ⟨o, hname.trans hnone, alone o ho (hname.trans hnone)⟩

/-! ## 2. Renaming -/

section Rename

variable {names : Renaming} (hnames : ∀ a ∈ names, a.2.isSome = true)
include hnames

/-- A renaming that takes no name away leaves a record as it is, or gives a named one a new
name. -/
theorem renameOne_record (n : Nat) (r : Record) :
    (renameOne (effective names) [] n r).1.record = r ∨
      r.name.isSome ∧ ∃ new, (renameOne (effective names) [] n r).1.record = r.withName new := by
  unfold renameOne
  split
  · rename_i old hold
    split
    · rename_i hnew
      obtain ⟨key, hmem⟩ := mem_of_newNameOf? hnew
      have hsome := hnames _ (List.mem_of_mem_filter hmem)
      cases hsome
    · split
      · exact .inl rfl
      · exact .inr ⟨by rw [hold]; rfl, _, rfl⟩
    · exact .inl rfl
  · exact .inl rfl

theorem renameAll_record {records : List Record} (n : Nat) :
    ∀ x ∈ renameAll (effective names) [] n records, ∃ r ∈ records,
      x.record = r ∨ r.name.isSome ∧ ∃ new, x.record = r.withName new := by
  induction records generalizing n with
  | nil =>
    intro x hx
    cases hx
  | cons r rs ih =>
    intro x hx
    rw [renameAll] at hx
    rcases List.mem_cons.mp hx with rfl | hx
    · exact ⟨r, List.mem_cons_self, renameOne_record hnames n r⟩
    · obtain ⟨s, hs, h⟩ := ih _ x hx
      exact ⟨s, List.mem_cons_of_mem r hs, h⟩

/-- **A renaming that takes no name away changes names only, and only of named records.** -/
theorem exists_of_mem_rename {m : Model} {r' : Record}
    (hr' : r' ∈ (m.rename names []).1.records) : ∃ r ∈ m.records,
      r' = r ∨ r.name.isSome ∧ ∃ new, r' = r.withName new := by
  have hspare : spareNames [] m.records = [] := rfl
  rw [Model.rename, hspare] at hr'
  simp only [handOut_nil, List.map_map] at hr'
  obtain ⟨x, hx, rfl⟩ := List.mem_map.mp hr'
  exact renameAll_record hnames _ x hx

theorem coherent_rename {m : Model} (h : ∀ r ∈ m.records, r.IsCoherent) :
    ∀ r ∈ (m.rename names []).1.records, r.IsCoherent := by
  intro r' hr'
  obtain ⟨r, hr, rfl | ⟨hname, new, rfl⟩⟩ := exists_of_mem_rename hnames hr'
  · exact h _ hr
  · exact ⟨fun _ => (h r hr).named hname, fun hnone => by cases hnone⟩

end Rename

/-! ## 3. Merging -/

namespace Model

variable {m : Model}

/-- A record that is left after merging has name, group and key of one that it was made of. -/
theorem exists_survivor {q : Record} (hq : q ∈ m.mergeIdentities.records) :
    ∃ r ∈ m.records, r.name = q.name ∧ r.group = q.group ∧ r.key = q.key :=
  forall_mergeIdentities
    (motive := fun q => ∃ r ∈ m.records, r.name = q.name ∧ r.group = q.group ∧ r.key = q.key)
    (fun _ _ h => h) m (fun r hr => ⟨r, hr, rfl, rfl, rfl⟩) q hq

/-- What a record holds after merging was held under its key. -/
theorem exists_holder {q : Record} (hq : q ∈ m.mergeIdentities.records) {o : Occurrence}
    (ho : o ∈ q.occurrences) : ∃ r ∈ m.records, r.key = q.key ∧ o ∈ r.occurrences := by
  rw [← under_key (mergeIdentities_keys m) hq] at ho
  obtain ⟨r, hr, hor⟩ := List.mem_flatMap.mp ((under_mergeIdentities m q.key).mem_iff.mp ho)
  obtain ⟨hr, hkey⟩ := List.mem_filter.mp hr
  exact ⟨r, hr, eq_of_beq hkey, hor⟩

/-- **Coherent records stay coherent when those of one key are merged**, if different records
have a key in common only by name and group. -/
theorem coherent_mergeIdentities (happart : RecordKeysApart m.records)
    (h : ∀ r ∈ m.records, r.IsCoherent) : ∀ q ∈ m.mergeIdentities.records, q.IsCoherent := by
  intro q hq
  obtain ⟨s, hs, hname, hgroup, hkey⟩ := exists_survivor hq
  constructor
  · intro hsome o ho
    obtain ⟨r, hr, hrk, hor⟩ := exists_holder hq ho
    by_cases heq : r = s
    · subst heq
      rw [← hgroup]
      exact (h r hr).named (hname ▸ hsome) o hor
    · obtain ⟨hrname, -, hrgroup⟩ := happart r hr s hs heq (hrk.trans hkey.symm)
      rw [← hgroup, ← hrgroup]
      exact (h r hr).named hrname o hor
  · intro hnone
    obtain ⟨o, ho, honly⟩ := (h s hs).nameless (hname.trans hnone)
    refine ⟨o, ho, fun o' ho' => ?_⟩
    obtain ⟨r, hr, hrk, hor⟩ := exists_holder hq ho'
    by_cases heq : r = s
    · exact honly o' (heq ▸ hor)
    · obtain ⟨hrname, hnames, -⟩ := happart r hr s hs heq (hrk.trans hkey.symm)
      rw [hnames, hname, hnone] at hrname
      cases hrname

end Model
end CiteMarkup
