import CiteMarkup.Proofs.Reference.Given
import CiteMarkup.Proofs.Reference.Referents
import CiteMarkup.Proofs.Transform.Identities
import CiteMarkup.Proofs.Transform.Keeping
import CiteMarkup.Reference.Catalogue
/-!
# The dictionary of bodies

The dictionary that a reader gets has the body of a record under the identity of the record, and
what other records put in under their identities and bare names does not change that
(`get?_foldl_addBody`).  So a body is found under an identity if the page gives it under that
identity and gives no other (`get?_bodies`).
-/

namespace CiteMarkup

/-! ## 1. Dictionaries -/

namespace Dictionary

variable {α : Type} {d : Dictionary α} {key k : Text} {v : α}

theorem has_eq_isSome (d : Dictionary α) (k : Text) : d.has k = (d.get? k).isSome := by
  induction d with
  | nil => rfl
  | cons e d ih =>
    obtain ⟨a, w⟩ := e
    rw [has, get?, List.any_cons, List.lookup_cons, BEq.comm (a := a)]
    cases k == a with
    | true => rfl
    | false => exact ih

theorem get?_map (d : Dictionary α) (key : Text) (v : α) (k : Text) :
    get? (d.map fun e => if e.1 == key then (key, v) else e) k =
      if k = key then (d.get? k).map fun _ => v else d.get? k := by
  induction d with
  | nil => simp [get?]
  | cons e d ih =>
    obtain ⟨a, w⟩ := e
    rw [get?] at ih
    rw [get?, get?, List.map_cons, List.lookup_cons]
    -- only what stands at the key that is looked up matters, and it keeps its key
    have hfst : (if ((a, w) : Text × α).1 == key then (key, v) else (a, w)).1 = a := by
      split
      · exact (eq_of_beq ‹_›).symm
      · rfl
    by_cases hk : k = a
    · subst hk
      by_cases heq : k = key
      · simp [heq]
      · simp [heq]
    · have hbeq : (k == a) = false := beq_false_of_ne hk
      rw [List.lookup_cons, hfst, hbeq]
      exact ih

/-- A key that is put has the value that it is put with, the others keep theirs. -/
theorem get?_put (d : Dictionary α) (key : Text) (v : α) (k : Text) :
    (d.put key v).get? k = if k = key then some v else d.get? k := by
  rw [put, has_eq_isSome]
  cases hkey : d.get? key with
  | none =>
    rw [get?] at hkey
    rw [Option.isSome_none, if_neg (by simp), get?, get?, List.lookup_append]
    split
    · rename_i heq
      rw [heq, hkey]
      simp
    · rename_i hne
      have hbeq : (k == key) = false := beq_false_of_ne hne
      simp [List.lookup_cons, hbeq]
  | some w =>
    rw [Option.isSome_some, if_pos rfl, get?_map]
    split
    · rename_i heq
      rw [heq, hkey]
      rfl
    · rfl

theorem get?_putNew_of_some (h : d.get? k = some v) (key : Text) (w : α) :
    (d.putNew key w).get? k = some v := by
  unfold putNew
  split
  · exact h
  · rw [get?] at h
    rw [get?, List.lookup_append, h]
    rfl

end Dictionary

/-! ## 2. Bodies of records -/

section Records

variable {d : Dictionary Text} {r : Record} {records : List Record} {k b : Text}

/-- The body of a record stands under its identity. -/
theorem get?_addBody_key (hb : r.content? = some b) (d : Dictionary Text) :
    (Reference.addBody d r).get? r.key = some b := by
  simp only [Reference.addBody, hb, Dictionary.get?_put, if_true]

/-- A record leaves what stands under another identity than its own. -/
theorem get?_addBody_of_ne (hne : r.key ≠ k) (h : d.get? k = some b) :
    (Reference.addBody d r).get? k = some b := by
  unfold Reference.addBody
  cases r.content? with
  | none => exact h
  | some c =>
    simp only [Dictionary.get?_put, if_neg hne.symm]
    cases r.name with
    | none => exact h
    | some n => exact Dictionary.get?_putNew_of_some h n c

theorem get?_foldl_addBody (hn : (records.map (·.key)).Nodup) (hr : r ∈ records)
    (hb : r.content? = some b) (d : Dictionary Text) :
    (records.foldl Reference.addBody d).get? r.key = some b := by
  have keeps : ∀ (l : List Record) (d : Dictionary Text), (∀ s ∈ l, s.key ≠ r.key) →
      d.get? r.key = some b → (l.foldl Reference.addBody d).get? r.key = some b := by
    intro l
    induction l with
    | nil => exact fun _ _ h => h
    | cons s l ih =>
      intro d hne h
      exact ih _ (fun x hx => hne x (List.mem_cons_of_mem _ hx))
        (get?_addBody_of_ne (hne s List.mem_cons_self) h)
  obtain ⟨before, after, rfl⟩ := List.append_of_mem hr
  rw [List.map_append, List.map_cons, List.nodup_append, List.nodup_cons] at hn
  rw [List.foldl_append, List.foldl_cons]
  refine keeps after _ (fun s hs heq => hn.2.1.1 ?_) (get?_addBody_key hb _)
  rw [← heq]
  exact List.mem_map_of_mem hs

end Records

/-! ## 3. Bodies of a page -/

section Page

variable {names : List Text} {t k b : Text} {r : Record} {o : Occurrence}

/-- The occurrences of a page in the order in which they are sorted into records. -/
def sortedOccurrences (names : List Text) (t : Text) : List Occurrence :=
  sortByStart Occurrence.start ((Page.ofText t).survey names).occurrences

theorem records_ofText (t : Text) (names : List Text) :
    (Model.ofText t names).records = recordsFrom 0 [] (sortedOccurrences names t) := rfl

theorem name_ne_of_mem_sorted (h : o ∈ sortedOccurrences names t) : o.name ≠ some [] :=
  Page.name_ne_of_mem_survey ((mem_sortByStart _ _).mp h)

/-- The identity of an occurrence that a record holds is the key of the record, unless it is
that of a reference without a name. -/
theorem identity?_of_mem (hr : r ∈ (Model.ofText t names).records) (ho : o ∈ r.occurrences) :
    o ∈ ((Page.ofText t).survey names).occurrences ∧
      (identity? o.name o.group = some r.key ∨ ∃ n, r.key = namelessIdentity n) := by
  rw [records_ofText] at hr
  obtain ⟨l, hl, hkey⟩ :=
    exists_referent_of_mem (fun _ => name_ne_of_mem_sorted) hr ho
  have hmem := mem_of_mem_resolved hl
  refine ⟨(mem_sortByStart _ _).mp hmem, ?_⟩
  cases hname : o.name with
  | none =>
    obtain ⟨n, -, rfl⟩ := referent_of_nameless hl hname
    exact .inr ⟨n, hkey.symm⟩
  | some n =>
    have hne : n ≠ [] := fun hnil => name_ne_of_mem_sorted hmem (by rw [hname, hnil])
    rw [referent_of_name hl hname] at hkey
    rw [identity?, Option.bind_some, nonempty?_of_ne hne, ← hkey]
    exact .inl rfl

/-- An occurrence with an identity is held by the record with that key. -/
theorem exists_record_of_identity (ho : o ∈ ((Page.ofText t).survey names).occurrences)
    (hk : identity? o.name o.group = some k) :
    ∃ r ∈ (Model.ofText t names).records, r.key = k ∧ o ∈ r.occurrences := by
  have hmem : o ∈ sortedOccurrences names t := (mem_sortByStart _ _).mpr ho
  obtain ⟨l, hl⟩ := exists_referent 0 hmem
  obtain ⟨r, hr, hkey, hor⟩ := exists_record (fun _ => name_ne_of_mem_sorted) hl
  refine ⟨r, hr, ?_, hor⟩
  obtain ⟨n, hname, hidentity⟩ := Option.map_eq_some_iff.mp hk
  obtain ⟨m, hm, hnonempty⟩ := Option.bind_eq_some_iff.mp hname
  obtain rfl := eq_of_nonempty? hnonempty
  rw [hkey, referent_of_name hl hm]
  exact hidentity

/-- The body that an occurrence of a record gives is looked for among its definitions. -/
theorem mem_definitions (hr : r ∈ (Model.ofText t names).records) (ho : o ∈ r.occurrences)
    (hb : o.visibleBody? = some b) : o ∈ r.definitions ++ r.listed := by
  have hbody := (Occurrence.visibleBody?_eq_some.mp hb).1
  rcases List.mem_append.mp (r.occurrences_perm.mem_iff.mp ho) with ho | ho
  · obtain ⟨-, hlisted⟩ := (accounts_ofText t names).mem_survey_of_use hr ho
    refine List.mem_append_left _ (Record.mem_definitions_iff.mpr ⟨ho, ?_⟩)
    cases hform : o.form with
    | full c => simp [Occurrence.isFull, hform]
    | bare => simp [Occurrence.body?, hform] at hbody
    | chained c i => simp [Occurrence.body?, hform] at hbody
    | listed c own => simp [Occurrence.isListed, hform] at hlisted
  · exact List.mem_append_right _ ho

/-- **A body is found under an identity** if the page gives it under that identity and gives no
other there. -/
theorem get?_bodies (hnames : names ≠ []) (hk : ∀ n, k ≠ namelessIdentity n)
    (hall : ∀ x ∈ givenBodies names t, identity? x.name x.group = some k → x.body = b)
    (hex : ∃ x ∈ givenBodies names t, identity? x.name x.group = some k) :
    (Reference.bodies t names).get? k = some b := by
  obtain ⟨x, hx, hxk⟩ := hex
  obtain ⟨o, ho, hgiven⟩ := mem_givenBodies.mp hx
  obtain ⟨c, hc, rfl⟩ := Option.map_eq_some_iff.mp hgiven
  obtain ⟨r, hr, rfl, hor⟩ := exists_record_of_identity ho hxk
  have hcontent : r.content? = some b := by
    -- there is a body, and every body of the record is given under its key
    have hsome : r.content?.isSome := by
      rw [Record.content?, List.findSome?_isSome_iff]
      exact ⟨o, (mem_sortByStart _ _).mpr (mem_definitions hr hor hc), by rw [hc]; rfl⟩
    obtain ⟨b', hb'⟩ := Option.isSome_iff_exists.mp hsome
    obtain ⟨o', ho', hbody⟩ := List.exists_of_findSome?_eq_some hb'
    have hor' : o' ∈ r.occurrences := by
      refine r.occurrences_perm.mem_iff.mpr ?_
      rcases List.mem_append.mp ((mem_sortByStart _ _).mp ho') with ho' | ho'
      · exact List.mem_append_left _ (Record.mem_definitions_iff.mp ho').1
      · exact List.mem_append_right _ ho'
    obtain ⟨hsurvey, hidentity⟩ := identity?_of_mem hr hor'
    have hid := hidentity.resolve_right fun ⟨n, hn⟩ => hk n hn
    have hgive : o'.given? = some ⟨o'.name, o'.group, b'⟩ := by rw [Occurrence.given?, hbody]; rfl
    have heq : b' = b := hall _ (mem_givenBodies.mpr ⟨o', hsurvey, hgive⟩) hid
    rw [hb', heq]
  have hempty : names.isEmpty = false := List.isEmpty_eq_false_iff.mpr hnames
  rw [Reference.bodies, hempty]
  exact get?_foldl_addBody (numbered_recordsFrom _).keys hr hcontent []

end Page
end CiteMarkup
