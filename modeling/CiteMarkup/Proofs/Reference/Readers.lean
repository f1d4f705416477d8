import CiteMarkup.Proofs.Order.Firsts
import CiteMarkup.Proofs.Reference.Catalogue
import CiteMarkup.Proofs.Transform.Merging
/-!
# The two readers of a page

A caller can ask for the references of a page or for the bodies by identity and by bare name.  The
references are the records as they stand (`catalogue_eq`), for records are begun in the order of the
page (`InPageOrder`).  A body is that of the record with the identity, and if there is none with a
body that of the first record with the name (`get?_bodies_eq`): an identity overwrites what a name
has put in, and a name puts nothing over an identity, whatever comes first.

The main result is `readers_agree`.
-/

namespace CiteMarkup

/-! ## 1. The order of records -/

namespace Record

variable {r : Record} {o : Occurrence} {a : Nat}

/-- A record begins where the first of its occurrences stands. -/
theorem firstStart?_eq_some : r.firstStart? = some a ↔
    (∃ o ∈ r.uses ++ r.listed, o.start = a) ∧ ∀ o ∈ r.uses ++ r.listed, a ≤ o.start := by
  have hmem : ∀ o, o ∈ r.uses ++ r.listed ↔ o ∈ r.occurrences := fun o =>
    r.occurrences_perm.mem_iff.symm
  have hsorted : r.occurrences.Pairwise fun o o' => o.start ≤ o'.start := pairwise_sortByStart _ _
  simp only [hmem, firstStart?]
  cases hocc : r.occurrences with
  | nil => simp
  | cons first rest =>
    rw [hocc] at hsorted
    have hleast : ∀ o ∈ first :: rest, first.start ≤ o.start :=
      List.forall_mem_cons.mpr ⟨Nat.le_refl _, (List.pairwise_cons.mp hsorted).1⟩
    rw [List.head?_cons, Option.map_some, Option.some.injEq]
    constructor
    · rintro rfl
      exact ⟨⟨first, List.mem_cons_self, rfl⟩, hleast⟩
    · rintro ⟨⟨o, ho, rfl⟩, hall⟩
      exact Nat.le_antisymm (hleast o ho) (hall first List.mem_cons_self)

theorem mem_add {o' : Occurrence} :
    o' ∈ (r.add o).uses ++ (r.add o).listed ↔ o' ∈ r.uses ++ r.listed ∨ o' = o := by
  rw [← (r.add o).occurrences_perm.mem_iff, (r.occurrences_add o).mem_iff,
    ← r.occurrences_perm.mem_iff, List.mem_append, List.mem_singleton]

/-- An occurrence further on does not change where a record begins. -/
theorem firstStart?_add (h : r.firstStart? = some a) (hle : a ≤ o.start) :
    (r.add o).firstStart? = some a := by
  obtain ⟨⟨first, hfirst, hstart⟩, hall⟩ := firstStart?_eq_some.mp h
  refine firstStart?_eq_some.mpr ⟨⟨first, mem_add.mpr (.inl hfirst), hstart⟩, fun o' ho' => ?_⟩
  rcases mem_add.mp ho' with ho' | rfl
  · exact hall o' ho'
  · exact hle

theorem firstStart?_opening (index : Nat) (key : Text) (o : Occurrence) :
    (opening index key o).firstStart? = some o.start := by
  have hperm := (occurrences_perm _).symm.trans (occurrences_opening index key o)
  have hmem : ∀ o', o' ∈ (opening index key o).uses ++ (opening index key o).listed ↔ o' = o :=
    fun o' => by rw [hperm.mem_iff, List.mem_singleton]
  refine firstStart?_eq_some.mpr ⟨⟨o, (hmem o).mpr rfl, rfl⟩, fun o' ho' => ?_⟩
  rw [(hmem o').mp ho']

end Record

/-- The records begin one behind the other on the page, and none of them behind `bound`. -/
structure InPageOrder (bound : Nat) (records : List Record) (starts : List Nat) : Prop where
  begun : records.map (·.firstStart?) = starts.map some
  ordered : starts.Pairwise (· ≤ ·)
  bounded : ∀ a ∈ starts, a ≤ bound

section Order

variable {records : List Record} {starts : List Nat} {bound n : Nat} {os : List Occurrence}
variable {o : Occurrence}

/-- **Sorting in an occurrence** keeps the order of the records, if it does not stand in front of
any of them. -/
theorem InPageOrder.sortInto (h : InPageOrder bound records starts) (hle : bound ≤ o.start)
    (key : Text) : ∃ starts', InPageOrder o.start (sortInto key o records) starts' := by
  have hbounded : ∀ a ∈ starts, a ≤ o.start := fun a ha => Nat.le_trans (h.bounded a ha) hle
  unfold CiteMarkup.sortInto
  split
  · refine ⟨starts, ?_, h.ordered, hbounded⟩
    rw [← h.begun, List.map_map]
    refine List.map_congr_left fun r hr => ?_
    simp only [Function.comp]
    split
    · have hmem : r.firstStart? ∈ starts.map some := h.begun ▸ List.mem_map_of_mem hr
      obtain ⟨a, ha, hstart⟩ := List.mem_map.mp hmem
      rw [← hstart]
      exact Record.firstStart?_add hstart.symm (hbounded a ha)
    · rfl
  · refine ⟨starts ++ [o.start], ?_, ?_, ?_⟩
    · rw [List.map_append, h.begun, List.map_singleton, Record.firstStart?_opening,
        List.map_append, List.map_singleton]
    · exact List.pairwise_append.mpr ⟨h.ordered, List.pairwise_singleton _ _,
        fun a ha b hb => by rw [List.mem_singleton.mp hb]; exact hbounded a ha⟩
    · intro a ha
      rcases List.mem_append.mp ha with ha | ha
      · exact hbounded a ha
      · exact Nat.le_of_eq (List.mem_singleton.mp ha)

/-- Occurrences in the order of the page give records in the order of the page. -/
theorem InPageOrder.recordsFrom (h : InPageOrder bound records starts)
    (hos : os.Pairwise fun o o' => o.start ≤ o'.start) (hle : ∀ o ∈ os, bound ≤ o.start) :
    ∃ bound' starts', InPageOrder bound' (recordsFrom n records os) starts' := by
  induction os generalizing n bound records starts with
  | nil => exact ⟨bound, starts, h⟩
  | cons o os ih =>
    obtain ⟨hfirst, hrest⟩ := List.pairwise_cons.mp hos
    obtain ⟨starts', h'⟩ := h.sortInto (hle o List.mem_cons_self) (keyOf n o).1
    rw [recordsFrom_cons]
    exact ih h' hrest hfirst

/-- **The records of a page begin one behind the other.** -/
theorem exists_starts (t : Text) (names : List Text) : ∃ starts : List Nat,
    (Model.ofText t names).records.map (·.firstStart?) = starts.map some ∧
      starts.Pairwise (· ≤ ·) := by
  have hempty : InPageOrder 0 [] [] := ⟨rfl, .nil, fun _ h => by cases h⟩
  obtain ⟨bound, starts, h⟩ := hempty.recordsFrom (n := 0)
    (pairwise_sortByStart Occurrence.start ((Page.ofText t).survey names).occurrences)
    fun _ _ => Nat.zero_le _
  exact ⟨starts, h.begun, h.ordered⟩

/-- **The references are the records as they stand.** -/
theorem catalogue_eq (t : Text) (names : List Text) :
    Reference.catalogue t names = (Model.ofText t names).records.map Reference.ofRecord := by
  obtain ⟨starts, hstarts, hordered⟩ := exists_starts t names
  have hsorted : (Model.ofText t names).records.Pairwise fun r s =>
      r.firstStart?.getD 0 ≤ s.firstStart?.getD 0 := by
    refine (List.pairwise_map (f := Record.firstStart?)
      (R := fun a b : Option Nat => a.getD 0 ≤ b.getD 0)).mp ?_
    rw [hstarts]
    exact List.pairwise_map.mpr hordered
  have hsorted' : (Model.ofText t names).records.Pairwise fun r s =>
      decide (r.firstStart?.getD 0 ≤ s.firstStart?.getD 0) = true :=
    hsorted.imp fun h => by simpa using h
  rw [Reference.catalogue]
  exact congrArg (List.map Reference.ofRecord) (sortStable_of_pairwise hsorted')

end Order

/-! ## 2. The dictionary of bodies -/

namespace Dictionary

variable {α : Type} {d : Dictionary α} {key k : Text} {v : α}

theorem get?_putNew (d : Dictionary α) (key : Text) (v : α) (k : Text) :
    (d.putNew key v).get? k = (d.get? k).or (if k = key then some v else none) := by
  rw [putNew, has_eq_isSome]
  cases hkey : d.get? key with
  | some w =>
    rw [Option.isSome_some, if_pos rfl]
    split
    · rename_i heq
      rw [heq, hkey]
      rfl
    · rw [Option.or_none]
  | none =>
    rw [Option.isSome_none, if_neg (by simp), get?, get?, List.lookup_append]
    congr 1
    split
    · rename_i heq
      simp [heq]
    · rename_i hne
      simp [List.lookup_cons, beq_false_of_ne hne]

theorem mem_keys_iff : k ∈ d.map Prod.fst ↔ (d.get? k).isSome = true := by
  rw [← has_eq_isSome, has, List.any_eq_true, List.mem_map]
  simp

theorem nodup_keys_put (h : (d.map Prod.fst).Nodup) (key : Text) (v : α) :
    ((d.put key v).map Prod.fst).Nodup := by
  unfold put
  split
  · have hmap : (d.map fun e => if e.1 == key then (key, v) else e).map Prod.fst =
        d.map Prod.fst := by
      rw [List.map_map]
      refine List.map_congr_left fun e _ => ?_
      simp only [Function.comp]
      split
      · exact (eq_of_beq ‹_›).symm
      · rfl
    rwa [hmap]
  · rename_i hno
    rw [List.map_append, List.map_singleton, ← List.concat_eq_append, List.nodup_concat,
      mem_keys_iff, ← has_eq_isSome]
    exact ⟨hno, h⟩

theorem nodup_keys_putNew (h : (d.map Prod.fst).Nodup) (key : Text) (v : α) :
    ((d.putNew key v).map Prod.fst).Nodup := by
  unfold putNew
  split
  · exact h
  · rename_i hno
    rw [List.map_append, List.map_singleton, ← List.concat_eq_append, List.nodup_concat,
      mem_keys_iff, ← has_eq_isSome]
    exact ⟨hno, h⟩

end Dictionary

section Bodies

variable {records : List Record} {r : Record} {k b : Text}

/-- The record with an identity, if it has a body. -/
def holderOf? (records : List Record) (k : Text) : Option Record :=
  records.find? fun r => r.key = k && r.content?.isSome

/-- The first record with a bare name that has a body. -/
def firstNamed? (records : List Record) (k : Text) : Option Record :=
  records.find? fun r => r.name = some k && r.content?.isSome

/-- The body that an identity or a bare name stands for. -/
def bodyUnder? (records : List Record) (k : Text) : Option Text :=
  ((holderOf? records k).or (firstNamed? records k)).bind (·.content?)

theorem mem_of_holderOf? (h : holderOf? records k = some r) :
    r ∈ records ∧ r.key = k ∧ r.content?.isSome = true := by
  have hkey := List.find?_some h
  simp only [Bool.and_eq_true, decide_eq_true_eq] at hkey
  exact ⟨List.mem_of_find?_eq_some h, hkey⟩

theorem mem_of_firstNamed? (h : firstNamed? records k = some r) :
    r ∈ records ∧ r.name = some k ∧ r.content?.isSome = true := by
  have hname := List.find?_some h
  simp only [Bool.and_eq_true, decide_eq_true_eq] at hname
  exact ⟨List.mem_of_find?_eq_some h, hname⟩

/-- The identities are apart, so a record with a body is the one that its identity leads to. -/
theorem holderOf?_key (hn : (records.map (·.key)).Nodup) (hr : r ∈ records)
    (hb : r.content? = some b) : holderOf? records r.key = some r := by
  cases hholder : holderOf? records r.key with
  | none =>
    have := List.find?_eq_none.mp hholder r hr
    simp [hb] at this
  | some s =>
    obtain ⟨hs, hkey, -⟩ := mem_of_holderOf? hholder
    rw [List.inj_on_of_nodup_map hn hs hr hkey]

theorem bodyUnder?_of_holder (h : holderOf? records k = some r) :
    bodyUnder? records k = r.content? := by
  rw [bodyUnder?, h]
  rfl

/-- A body stands under identities and bare names only. -/
theorem isSome_bodyUnder? : (bodyUnder? records k).isSome = true ↔
    ∃ r ∈ records, r.content? ≠ none ∧ (r.key = k ∨ r.name = some k) := by
  unfold bodyUnder?
  cases hholder : holderOf? records k with
  | some r =>
    obtain ⟨hr, hkey, hb⟩ := mem_of_holderOf? hholder
    exact ⟨fun _ => ⟨r, hr, Option.isSome_iff_ne_none.mp hb, .inl hkey⟩, fun _ => hb⟩
  | none =>
    rw [Option.none_or]
    have hno := List.find?_eq_none.mp hholder
    constructor
    · intro h
      obtain ⟨b, hb⟩ := Option.isSome_iff_exists.mp h
      obtain ⟨r, hr, hrb⟩ := Option.bind_eq_some_iff.mp hb
      obtain ⟨hmem, hname, -⟩ := mem_of_firstNamed? hr
      exact ⟨r, hmem, by rw [hrb]; simp, .inr hname⟩
    · rintro ⟨r, hr, hb, hkey | hname⟩
      · refine absurd ?_ (hno r hr)
        simp [hkey, Option.isSome_iff_ne_none, hb]
      · cases hfirst : firstNamed? records k with
        | none =>
          refine absurd ?_ (List.find?_eq_none.mp hfirst r hr)
          simp [hname, Option.isSome_iff_ne_none, hb]
        | some s => exact (mem_of_firstNamed? hfirst).2.2

/-- The body of a record goes under its identity in any case, and under its name if there is
nothing yet. -/
theorem get?_addBody (hb : r.content? = some b) (d : Dictionary Text) (k : Text) :
    (Reference.addBody d r).get? k = if k = r.key then some b else
      (d.get? k).or (if r.name = some k then some b else none) := by
  simp only [Reference.addBody, hb, Dictionary.get?_put]
  split
  · rfl
  · cases hname : r.name with
    | none => simp
    | some n =>
      simp only [Dictionary.get?_putNew, Option.some.injEq]
      congr 2
      exact propext eq_comm

/-- **What stands under a key after all bodies have been put in**: the body of the record with the
identity, else what has stood there before, else the body of the first record with the name. -/
theorem get?_foldl_addBody_eq (hn : (records.map (·.key)).Nodup) (d : Dictionary Text) (k : Text) :
    (records.foldl Reference.addBody d).get? k =
      ((holderOf? records k).bind (·.content?)).or
        ((d.get? k).or ((firstNamed? records k).bind (·.content?))) := by
  induction records generalizing d with
  | nil => simp [holderOf?, firstNamed?]
  | cons r records ih =>
    rw [List.map_cons, List.nodup_cons] at hn
    rw [List.foldl_cons, ih hn.2]
    cases hb : r.content? with
    | none =>
      have hadd : Reference.addBody d r = d := by
        unfold Reference.addBody
        rw [hb]
      rw [hadd]
      simp [holderOf?, firstNamed?, hb]
    | some b =>
      rw [get?_addBody hb]
      by_cases hk : k = r.key
      · -- no other record has the identity
        have hnone : holderOf? records k = none := by
          refine List.find?_eq_none.mpr fun s hs hkey => hn.1 ?_
          simp only [Bool.and_eq_true, decide_eq_true_eq] at hkey
          exact List.mem_map.mpr ⟨s, hs, hkey.1.trans hk⟩
        have hself : holderOf? (r :: records) k = some r := by
          simp [holderOf?, hk, hb]
        rw [hnone, hself, if_pos hk, Option.bind_some, hb]
        simp
      · have hrest : holderOf? (r :: records) k = holderOf? records k := by
          simp [holderOf?, Ne.symm hk]
        rw [hrest, if_neg hk]
        congr 1
        by_cases hname : r.name = some k
        · have hself : firstNamed? (r :: records) k = some r := by
            simp [firstNamed?, hname, hb]
          rw [hself, if_pos hname, Option.bind_some, hb]
          cases d.get? k <;> rfl
        · have hrest : firstNamed? (r :: records) k = firstNamed? records k := by
            simp [firstNamed?, hname]
          rw [hrest, if_neg hname, Option.or_none]

/-- **The bodies of a page**, each under its identity and under its bare name. -/
theorem get?_bodies_eq (t name : Text) (names : List Text) (k : Text) :
    (Reference.bodies t (name :: names)).get? k =
      bodyUnder? (Model.ofText t (name :: names)).records k := by
  have hfold :=
    get?_foldl_addBody_eq (numbered_recordsFrom (sortedOccurrences (name :: names) t)).keys
    [] k
  rw [← records_ofText] at hfold
  rw [bodyUnder?]
  refine hfold.trans ?_
  cases hholder : holderOf? (Model.ofText t (name :: names)).records k with
  | none => rfl
  | some r =>
    -- the record has been looked for among those with a body
    obtain ⟨b, hb⟩ := Option.isSome_iff_exists.mp (mem_of_holderOf? hholder).2.2
    simp [hb]

theorem nodup_keys_addBody {d : Dictionary Text} (h : (d.map Prod.fst).Nodup) (r : Record) :
    ((Reference.addBody d r).map Prod.fst).Nodup := by
  unfold Reference.addBody
  split
  · exact h
  · refine Dictionary.nodup_keys_put ?_ _ _
    split
    · exact Dictionary.nodup_keys_putNew h _ _
    · exact h

theorem nodup_keys_foldl_addBody {d : Dictionary Text} (h : (d.map Prod.fst).Nodup)
    (records : List Record) : ((records.foldl Reference.addBody d).map Prod.fst).Nodup := by
  induction records generalizing d with
  | nil => exact h
  | cons r records ih => exact ih (nodup_keys_addBody h r)

end Bodies

/-! ## 3. Agreement -/

/-- What the two readers say of the records of a page. -/
structure ReadersAgree (records : List Record) (references : List Reference)
    (bodies : Dictionary Text) : Prop where
  /-- The references are the records, in the same order, and no two have one identity. -/
  references_eq : references = records.map Reference.ofRecord
  identities : (references.map (·.id)).Nodup
  /-- They come in the order in which they begin, and each begins at its first occurrence. -/
  ordered : ∃ starts : List Nat, records.map (·.firstStart?) = starts.map some ∧
    starts.Pairwise (· ≤ ·)
  first : ∀ r ∈ records, ∀ a, r.firstStart? = some a → ∀ o ∈ r.occurrences, a ≤ o.start
  /-- The body that a reference shows is the one that is found under its identity. -/
  found : ∀ r ∈ references, r.body ≠ [] → ∃ b, bodies.get? r.id = some b ∧ b.trim = r.body
  /-- A bare name leads to the record with this identity if it has a body, else to the first one
  with this name that has one. -/
  named : ∀ n, (∃ r ∈ records, r.name = some n ∧ r.content? ≠ none) →
    bodies.get? n = ((holderOf? records n).or (firstNamed? records n)).bind (·.content?)
  /-- Nothing else is a key, and no key comes twice. -/
  keys : ∀ k, k ∈ bodies.map Prod.fst ↔
    ∃ r ∈ records, r.content? ≠ none ∧ (r.key = k ∨ r.name = some k)
  distinct : (bodies.map Prod.fst).Nodup

/-- **The two readers agree**, on every page and for every list of names that is not empty. -/
theorem readers_agree (t name : Text) (names : List Text) :
    ReadersAgree (Model.ofText t (name :: names)).records (Reference.catalogue t (name :: names))
      (Reference.bodies t (name :: names)) := by
  have hkeys : ((Model.ofText t (name :: names)).records.map (·.key)).Nodup :=
    (numbered_recordsFrom _).keys
  have hempty : (([] : Dictionary Text).map Prod.fst).Nodup := List.nodup_nil
  refine
    { references_eq := catalogue_eq t _
      identities := ?identities
      ordered := exists_starts t _
      first := fun r _ a ha o ho =>
        (Record.firstStart?_eq_some.mp ha).2 o (r.occurrences_perm.mem_iff.mp ho)
      found := fun x hx hbody => ?found
      named := fun n _ => get?_bodies_eq t name names n
      keys := fun k => by rw [Dictionary.mem_keys_iff, get?_bodies_eq, isSome_bodyUnder?]
      distinct := nodup_keys_foldl_addBody hempty _ }
  case identities =>
    rw [catalogue_eq, List.map_map]
    exact hkeys
  case found =>
    rw [catalogue_eq] at hx
    obtain ⟨r, hr, rfl⟩ := List.mem_map.mp hx
    cases hb : r.content? with
    | none => simp [Reference.ofRecord, hb, Text.trim, Text.trimStart, Text.trimEnd] at hbody
    | some b =>
      refine ⟨b, ?_, by simp [Reference.ofRecord, hb]⟩
      rw [get?_bodies_eq, ← hb]
      exact bodyUnder?_of_holder (holderOf?_key hkeys hr hb)

end CiteMarkup
