import CiteMarkup.Proofs.Reference.Records
import CiteMarkup.Proofs.Text.Value
import Mathlib.Data.List.Infix
/-!
# What tells the references of a page apart

An occurrence refers to what its name and its group say, or, without a name, to a reference of
its own.  Occurrences are not sorted by these referents but by keys, the texts that referents
are written as.  So a record holds exactly the occurrences whose referents are written alike
(`occurrences_perm_filed`), and the records tell the references of a page apart exactly if no
two referents of the page are written alike (`tellsApart_recordsFrom_iff`).

Referents that are written alike exist: `g::x` without a group, and `x` in the group `g`.  Plain
ones, with no `::` in a group or in a name without one, are apart (`Referent.eq_of_key_eq`).
-/

namespace CiteMarkup

/-! ## 1. Referents -/

/-- The reference that an occurrence means. -/
inductive Referent where
  /-- The name of the reference and its group. -/
  | named (name : Text) (group : Option Text)
  /-- The number of a reference without a name among all of this kind. -/
  | nameless (number : Nat)
  deriving DecidableEq

/-- The key that a referent is written as. -/
def Referent.key : Referent → Text
  | named name group => identityOf name group
  | nameless number => namelessIdentity number

/-- The referent of an occurrence, `n` nameless ones having come before. -/
def Occurrence.referentAt (n : Nat) (o : Occurrence) : Referent :=
  match o.name with
  | some name => .named name o.group
  | none => .nameless n

/-- Occurrences in turn with their referents, `n` nameless ones having come before. -/
def resolved : (n : Nat) → List Occurrence → List (Occurrence × Referent)
  | _, [] => []
  | n, o :: os => (o, o.referentAt n) :: resolved (if o.name.isSome then n else n + 1) os

/-- No two referents are written alike. -/
def KeysApart (referents : List Referent) : Prop :=
  ∀ l ∈ referents, ∀ l' ∈ referents, l.key = l'.key → l = l'

instance (referents : List Referent) : Decidable (KeysApart referents) :=
  inferInstanceAs (Decidable (∀ l ∈ referents, ∀ l' ∈ referents, l.key = l'.key → l = l'))

/-- The occurrences that are filed under a key. -/
def filed (n : Nat) (os : List Occurrence) (key : Text) : List Occurrence :=
  ((resolved n os).filter (·.2.key == key)).map (·.1)

section Resolved

variable {n k : Nat} {o o' : Occurrence} {l : Referent} {os : List Occurrence}

@[simp] theorem map_fst_resolved (n : Nat) (os : List Occurrence) :
    (resolved n os).map (·.1) = os := by
  induction os generalizing n with
  | nil => rfl
  | cons o os ih => rw [resolved, List.map_cons, ih]

theorem exists_referent (n : Nat) (h : o ∈ os) : ∃ l, (o, l) ∈ resolved n os := by
  rw [← map_fst_resolved n os] at h
  obtain ⟨⟨o', l⟩, hmem, rfl⟩ := List.mem_map.mp h
  exact ⟨l, hmem⟩

theorem mem_of_mem_resolved (h : (o, l) ∈ resolved n os) : o ∈ os := by
  rw [← map_fst_resolved n os]
  exact List.mem_map_of_mem h

theorem mem_filed {key : Text} :
    o ∈ filed n os key ↔ ∃ l, (o, l) ∈ resolved n os ∧ l.key = key := by
  simp [filed]

/-- The referent of an occurrence, but for the number of a nameless one. -/
theorem referent_of_mem (h : (o, l) ∈ resolved n os) : ∃ k, n ≤ k ∧ l = o.referentAt k := by
  induction os generalizing n with
  | nil => cases h
  | cons a os ih =>
    rw [resolved] at h
    rcases List.mem_cons.mp h with heq | h
    · obtain ⟨rfl, rfl⟩ := Prod.mk.inj heq
      exact ⟨n, Nat.le_refl n, rfl⟩
    · obtain ⟨k, hk, hl⟩ := ih h
      refine ⟨k, ?_, hl⟩
      split at hk <;> omega

theorem referent_of_name {name : Text} (h : (o, l) ∈ resolved n os) (hname : o.name = some name) :
    l = .named name o.group := by
  obtain ⟨k, -, rfl⟩ := referent_of_mem h
  rw [Occurrence.referentAt, hname]

theorem referent_of_nameless (h : (o, l) ∈ resolved n os) (hname : o.name = none) :
    ∃ k, n ≤ k ∧ l = .nameless k := by
  obtain ⟨k, hk, rfl⟩ := referent_of_mem h
  exact ⟨k, hk, by rw [Occurrence.referentAt, hname]⟩

/-- A number is given once. -/
theorem eq_of_nameless (h : (o, .nameless k) ∈ resolved n os)
    (h' : (o', .nameless k) ∈ resolved n os) : o = o' := by
  have later : ∀ {n : Nat} {os : List Occurrence} {o : Occurrence},
      (o, .nameless k) ∈ resolved n os → n ≤ k := by
    intro n os o h
    obtain ⟨j, hj, hl⟩ := referent_of_mem h
    unfold Occurrence.referentAt at hl
    split at hl
    · cases hl
    · obtain rfl := Referent.nameless.inj hl
      exact hj
  induction os generalizing n with
  | nil => cases h
  | cons a os ih =>
    rw [resolved] at h h'
    -- the first occurrence has the number `n` or a name, those behind it have later numbers
    have first : ∀ {b : Occurrence}, (b, Referent.nameless k) = (a, a.referentAt n) →
        b = a ∧ a.name = none ∧ k = n := by
      intro b heq
      obtain ⟨hb, hl⟩ := Prod.mk.inj heq
      unfold Occurrence.referentAt at hl
      split at hl
      · cases hl
      · rename_i hname
        exact ⟨hb, hname, Referent.nameless.inj hl⟩
    rcases List.mem_cons.mp h with heq | h
    · obtain ⟨rfl, hname, rfl⟩ := first heq
      rcases List.mem_cons.mp h' with heq' | h'
      · exact (first heq').1.symm
      · have hlater := later h'
        simp only [hname, Option.isSome_none, Bool.false_eq_true, ↓reduceIte] at hlater
        omega
    · rcases List.mem_cons.mp h' with heq' | h'
      · obtain ⟨rfl, hname, rfl⟩ := first heq'
        have hlater := later h
        simp only [hname, Option.isSome_none, Bool.false_eq_true, ↓reduceIte] at hlater
        omega
      · exact ih h h'

/-- An occurrence that stands on the page once has one referent. -/
theorem referent_unique {l' : Referent} (hn : os.Nodup) (h : (o, l) ∈ resolved n os)
    (h' : (o, l') ∈ resolved n os) : l = l' := by
  rw [← map_fst_resolved n os] at hn
  exact (Prod.mk.inj (List.inj_on_of_nodup_map hn h h' rfl)).2

end Resolved

/-! ## 2. What is filed under a key -/

/-- What the records with a key hold. -/
def under (key : Text) (records : List Record) : List Occurrence :=
  (records.filter (·.key == key)).flatMap (·.occurrences)

theorem Record.occurrences_perm (r : Record) : r.occurrences.Perm (r.uses ++ r.listed) :=
  sortByStart_perm _ _

theorem Record.occurrences_add (r : Record) (o : Occurrence) :
    (r.add o).occurrences.Perm (r.occurrences ++ [o]) := by
  refine (occurrences_perm _).trans ?_
  refine List.Perm.trans ?_ ((occurrences_perm r).symm.append_right [o])
  rw [uses_add, listed_add, List.append_assoc, List.append_assoc]
  refine List.Perm.append_left _ ?_
  by_cases h : o.isListed = true
  · simp [h]
  · have hswap : ([o] ++ r.listed).Perm (r.listed ++ [o]) := List.perm_append_comm
    simpa [h] using hswap

theorem Record.occurrences_opening (index : Nat) (key : Text) (o : Occurrence) :
    (Record.opening index key o).occurrences.Perm [o] := by
  simpa [Record.opening, Record.occurrences, sortByStart, sortStable] using
    Record.occurrences_add
      { index := index, key := key, name := o.name, group := o.group, uses := [], definitions := []
        listed := [], canonical := index, location := .inline, writtenName := o.name } o

/-- Records with keys of their own: what is under a key is what the record with the key holds. -/
theorem under_key {records : List Record} (hn : (records.map (·.key)).Nodup) {r : Record}
    (hr : r ∈ records) : under r.key records = r.occurrences := by
  induction records with
  | nil => cases hr
  | cons s rs ih =>
    rw [List.map_cons, List.nodup_cons] at hn
    have hrest : ∀ x ∈ rs, (x.key == s.key) = false := by
      intro x hx
      refine beq_false_of_ne fun heq => hn.1 ?_
      rw [← heq]
      exact List.mem_map_of_mem hx
    rcases List.mem_cons.mp hr with rfl | hr
    · rw [under, List.filter_cons_of_pos (by simp),
        List.filter_eq_nil_iff.mpr fun x hx => by simp [hrest x hx], List.flatMap_singleton]
    · have hs : (s.key == r.key) = false := by
        rw [BEq.comm]
        exact hrest r hr
      rw [under, List.filter_cons_of_neg (by simp [hs])]
      exact ih hn.2 hr

/-- If the record with a key takes in `extra`, then that is under the key and under no other. -/
theorem under_update {f : Record → Record} {extra : List Occurrence} {key k : Text}
    (hkey : ∀ r, (f r).key = r.key)
    (hf : ∀ r, (f r).occurrences.Perm (r.occurrences ++ extra)) {records : List Record}
    (hn : (records.map (·.key)).Nodup) (hany : (records.any fun r => r.key == key) = true) :
    (under k (records.map fun r => if r.key == key then f r else r)).Perm
      (under k records ++ if key = k then extra else []) := by
  induction records with
  | nil => simp at hany
  | cons r rs ih =>
    rw [List.map_cons, List.nodup_cons] at hn
    by_cases hr : r.key = key
    · -- the keys are apart, so the other records stay as they are
      have hrest : (rs.map fun s => if s.key == key then f s else s) = rs := by
        refine (List.map_congr_left fun s hs => ?_).trans (List.map_id rs)
        rw [if_neg]
        · rfl
        · intro hs'
          rw [beq_iff_eq] at hs'
          exact hn.1 (List.mem_map.mpr ⟨s, hs, hs'.trans hr.symm⟩)
      rw [List.map_cons, hrest, if_pos (by simpa using hr)]
      by_cases hk : key = k
      · have hnil : rs.filter (·.key == k) = [] := by
          rw [List.filter_eq_nil_iff]
          intro s hs hsk
          rw [beq_iff_eq, ← hk, ← hr] at hsk
          exact hn.1 (List.mem_map.mpr ⟨s, hs, hsk⟩)
        simpa [under, List.filter_cons, hkey, hr, hk, hnil] using hf r
      · simp [under, hkey, hr, hk]
    · rw [List.any_cons, Bool.or_eq_true] at hany
      have hrs := ih hn.2 (hany.resolve_left (by simpa using hr))
      rw [List.map_cons, if_neg (by simpa using hr)]
      by_cases hk : r.key = k
      · simpa [under, List.filter_cons, hk] using hrs.append_left r.occurrences
      · simpa [under, List.filter_cons, hk] using hrs

theorem under_append_singleton (key : Text) (records : List Record) (s : Record) :
    under key (records ++ [s]) =
      under key records ++ if s.key = key then s.occurrences else [] := by
  by_cases h : s.key = key <;> simp [under, h]

theorem under_sortInto {records : List Record} (hn : (records.map (·.key)).Nodup)
    (key k : Text) (o : Occurrence) :
    (under k (sortInto key o records)).Perm (under k records ++ if key = k then [o] else []) := by
  unfold sortInto
  split
  · rename_i hany
    exact under_update (Record.key_add o) (fun r => r.occurrences_add o) hn hany
  · have hkey : (Record.opening records.length key o).key = key := Record.key_add o _
    rw [under_append_singleton, hkey]
    refine List.Perm.append_left _ ?_
    split
    · exact Record.occurrences_opening _ _ _
    · exact List.Perm.refl []

/-- The key under which the next occurrence is sorted in is that of its referent. -/
theorem keyOf_eq {o : Occurrence} (ho : o.name ≠ some []) (n : Nat) :
    keyOf n o = ((o.referentAt n).key, if o.name.isSome then n else n + 1) := by
  unfold keyOf Occurrence.referentAt identity?
  cases hname : o.name with
  | none => rfl
  | some name =>
    cases name with
    | nil => exact absurd hname ho
    | cons c r => rfl

/-- Under a key stand the occurrences that are filed under it. -/
theorem under_recordsFrom {os : List Occurrence} (ho : ∀ o ∈ os, o.name ≠ some []) {n : Nat}
    {records : List Record} (h : Numbered records) (key : Text) :
    (under key (recordsFrom n records os)).Perm (under key records ++ filed n os key) := by
  induction os generalizing n records with
  | nil => simp [recordsFrom, filed, resolved]
  | cons o os ih =>
    have hkey := keyOf_eq (ho o List.mem_cons_self) n
    have hrest := ih (fun a ha => ho a (List.mem_cons_of_mem _ ha))
      (h.sortInto (keyOf n o).1 o) (n := (keyOf n o).2)
    rw [recordsFrom_cons]
    refine hrest.trans ?_
    refine ((under_sortInto h.keys _ key o).append_right _).trans ?_
    rw [List.append_assoc, hkey]
    refine List.Perm.append_left _ (.of_eq ?_)
    by_cases hk : (o.referentAt n).key = key <;> simp [filed, resolved, hk]

/-! ## 3. The records of a page -/

section Records

variable {os : List Occurrence} (ho : ∀ o ∈ os, o.name ≠ some [])
include ho

/-- **A record holds the occurrences whose referents are written as its key.** -/
theorem occurrences_perm_filed {r : Record} (hr : r ∈ recordsFrom 0 [] os) :
    r.occurrences.Perm (filed 0 os r.key) := by
  have hnumbered := numbered_recordsFrom os
  rw [← under_key hnumbered.keys hr]
  exact under_recordsFrom ho ⟨by simp, rfl, by simp⟩ r.key

/-- An occurrence with a referent is held by the record with its key. -/
theorem exists_record {o : Occurrence} {l : Referent} (h : (o, l) ∈ resolved 0 os) :
    ∃ r ∈ recordsFrom 0 [] os, r.key = l.key ∧ o ∈ r.occurrences := by
  have hmem : o ∈ under l.key (recordsFrom 0 [] os) :=
    (under_recordsFrom ho ⟨by simp, rfl, by simp⟩ l.key).mem_iff.mpr
      (List.mem_append_right _ (mem_filed.mpr ⟨l, h, rfl⟩))
  obtain ⟨r, hr, hor⟩ := List.mem_flatMap.mp hmem
  obtain ⟨hr, hkey⟩ := List.mem_filter.mp hr
  exact ⟨r, hr, eq_of_beq hkey, hor⟩

/-- An occurrence that a record holds has a referent that is written as the key of the record. -/
theorem exists_referent_of_mem {r : Record} (hr : r ∈ recordsFrom 0 [] os) {o : Occurrence}
    (h : o ∈ r.occurrences) : ∃ l, (o, l) ∈ resolved 0 os ∧ l.key = r.key :=
  mem_filed.mp ((occurrences_perm_filed ho hr).mem_iff.mp h)

end Records

/-- No occurrence is held twice. -/
theorem record_unique {os : List Occurrence} (ho : ∀ o ∈ os, o.name ≠ some []) (hn : os.Nodup)
    {r s : Record} (hr : r ∈ recordsFrom 0 [] os) (hs : s ∈ recordsFrom 0 [] os)
    {o : Occurrence} (hor : o ∈ r.occurrences) (hos : o ∈ s.occurrences) : r = s := by
  obtain ⟨l, hl, hlk⟩ := exists_referent_of_mem ho hr hor
  obtain ⟨l', hl', hlk'⟩ := exists_referent_of_mem ho hs hos
  refine List.inj_on_of_nodup_map (numbered_recordsFrom os).keys hr hs ?_
  rw [← hlk, ← hlk', referent_unique hn hl hl']

/-- Occurrences of one record have one referent if the keys are apart. -/
theorem same_referent {os : List Occurrence} (ho : ∀ o ∈ os, o.name ≠ some [])
    (h : KeysApart ((resolved 0 os).map (·.2))) {r : Record} (hr : r ∈ recordsFrom 0 [] os)
    {o o' : Occurrence} (hor : o ∈ r.occurrences) (hor' : o' ∈ r.occurrences) :
    ∃ l, (o, l) ∈ resolved 0 os ∧ (o', l) ∈ resolved 0 os := by
  obtain ⟨l, hl, hlk⟩ := exists_referent_of_mem ho hr hor
  obtain ⟨l', hl', hlk'⟩ := exists_referent_of_mem ho hr hor'
  have heq := h l (List.mem_map_of_mem hl) l' (List.mem_map_of_mem hl') (hlk.trans hlk'.symm)
  exact ⟨l, hl, heq ▸ hl'⟩

/-- The records tell references apart: named occurrences are in one record exactly if name and
group agree, and a nameless one has a record to itself. -/
structure TellsApart (os : List Occurrence) (records : List Record) : Prop where
  named : ∀ o ∈ os, ∀ o' ∈ os, o.name.isSome → o'.name.isSome →
    ((∃ r ∈ records, o ∈ r.occurrences ∧ o' ∈ r.occurrences) ↔
      o.name = o'.name ∧ o.group = o'.group)
  nameless : ∀ o ∈ os, o.name = none →
    ∃ r ∈ records, r.occurrences = [o] ∧ ∀ s ∈ records, o ∈ s.occurrences → s = r

section Apart

variable {os : List Occurrence} (ho : ∀ o ∈ os, o.name ≠ some []) (hn : os.Nodup)
include ho hn

/-- Referents of one key are one if the records tell references apart. -/
theorem keysApart_of_tellsApart (h : TellsApart os (recordsFrom 0 [] os)) :
    KeysApart ((resolved 0 os).map (·.2)) := by
  intro l hl l' hl' heq
  obtain ⟨⟨o, l⟩, hol, rfl⟩ := List.mem_map.mp hl
  obtain ⟨⟨o', l'⟩, hol', rfl⟩ := List.mem_map.mp hl'
  simp only at heq ⊢
  obtain ⟨r, hr, hrk, hor⟩ := exists_record ho hol
  obtain ⟨s, hs, hsk, hos⟩ := exists_record ho hol'
  have hkeys := (numbered_recordsFrom os).keys
  obtain rfl : r = s := List.inj_on_of_nodup_map hkeys hr hs (by rw [hrk, hsk, heq])
  -- one record holds both, so they agree, or one of them is alone in it
  have alone : ∀ {a : Occurrence}, a ∈ os → a.name = none → a ∈ r.occurrences →
      r.occurrences = [a] := by
    intro a ha hname har
    obtain ⟨q, -, hq, hunique⟩ := h.nameless a ha hname
    rw [hunique r hr har, hq]
  cases hname : o.name with
  | none =>
    rw [alone (mem_of_mem_resolved hol) hname hor, List.mem_singleton] at hos
    rw [hos] at hol'
    exact referent_unique hn hol hol'
  | some name =>
    cases hname' : o'.name with
    | none =>
      rw [alone (mem_of_mem_resolved hol') hname' hos, List.mem_singleton] at hor
      rw [hor] at hol
      exact referent_unique hn hol hol'
    | some name' =>
      obtain ⟨hnames, hgroups⟩ :=
        (h.named o (mem_of_mem_resolved hol) o' (mem_of_mem_resolved hol') (by simp [hname])
          (by simp [hname'])).mp ⟨r, hr, hor, hos⟩
      rw [referent_of_name hol hname, referent_of_name hol' (hnames ▸ hname), hgroups]

theorem tellsApart_of_keysApart (h : KeysApart ((resolved 0 os).map (·.2))) :
    TellsApart os (recordsFrom 0 [] os) where
  named := by
    intro o hmem o' hmem' hname hname'
    obtain ⟨name, hname⟩ := Option.isSome_iff_exists.mp hname
    obtain ⟨name', hname'⟩ := Option.isSome_iff_exists.mp hname'
    constructor
    · rintro ⟨r, hr, hor, hor'⟩
      obtain ⟨l, hl, hl'⟩ := same_referent ho h hr hor hor'
      have heq := (referent_of_name hl hname).symm.trans (referent_of_name hl' hname')
      obtain ⟨hnames, hgroups⟩ := Referent.named.inj heq
      exact ⟨by rw [hname, hname', hnames], hgroups⟩
    · rintro ⟨hnames, hgroups⟩
      obtain ⟨l, hl⟩ := exists_referent 0 hmem
      obtain ⟨l', hl'⟩ := exists_referent 0 hmem'
      have heq : l' = l := by
        rw [referent_of_name hl hname, referent_of_name hl' (hnames ▸ hname), hgroups]
      obtain ⟨r, hr, hrk, hor⟩ := exists_record ho hl
      obtain ⟨s, hs, hsk, hos⟩ := exists_record ho hl'
      have hkeys := (numbered_recordsFrom os).keys
      obtain rfl : r = s := List.inj_on_of_nodup_map hkeys hr hs (by rw [hrk, hsk, heq])
      exact ⟨r, hr, hor, hos⟩
  nameless := by
    intro o hmem hname
    obtain ⟨l, hl⟩ := exists_referent 0 hmem
    obtain ⟨r, hr, -, hor⟩ := exists_record ho hl
    refine ⟨r, hr, ?_, fun s hs hos => record_unique ho hn hs hr hos hor⟩
    have hnodup : r.occurrences.Nodup := by
      refine (occurrences_perm_filed ho hr).nodup_iff.mpr ?_
      refine List.Nodup.sublist ?_ (map_fst_resolved 0 os ▸ hn)
      exact List.Sublist.map _ List.filter_sublist
    have hall : ∀ o' ∈ r.occurrences, o' = o := by
      intro o' hor'
      obtain ⟨l, hl, hl'⟩ := same_referent ho h hr hor hor'
      obtain ⟨k, -, rfl⟩ := referent_of_nameless hl hname
      exact eq_of_nameless hl' hl
    refine List.perm_singleton.mp ?_
    refine (List.perm_ext_iff_of_nodup hnodup (List.nodup_singleton o)).mpr fun x => ?_
    rw [List.mem_singleton]
    exact ⟨hall x, fun hx => hx ▸ hor⟩

/-- **Records tell references apart exactly if no two referents are written alike.** -/
theorem tellsApart_recordsFrom_iff :
    TellsApart os (recordsFrom 0 [] os) ↔ KeysApart ((resolved 0 os).map (·.2)) :=
  ⟨keysApart_of_tellsApart ho hn, tellsApart_of_keysApart ho hn⟩

end Apart

/-! ## 4. Plain referents -/

/-- A group that a key shows as it is: it does not run into the `::` behind it. -/
def PlainGroup (group : Text) : Prop :=
  group ≠ [] ∧ ¬ "::".toList <:+: group ∧ group.getLast? ≠ some ':'

/-- A name that is no key of another kind: it has no group in front and is not made up. -/
def PlainName (name : Text) : Prop :=
  ¬ "::".toList <:+: name ∧ ¬ "__nameless_".toList <+: name

instance (group : Text) : Decidable (PlainGroup group) :=
  inferInstanceAs (Decidable (_ ∧ _ ∧ _))

instance (name : Text) : Decidable (PlainName name) := inferInstanceAs (Decidable (_ ∧ _))

/-- A name that may be missing, and a group, that a key shows as they are. -/
def PlainlyKeyed (name : Option Text) : Option Text → Prop
  | none => ∀ n ∈ name, PlainName n
  | some group => PlainGroup group

instance (name group : Option Text) : Decidable (PlainlyKeyed name group) :=
  match group with
  | none => inferInstanceAs (Decidable (∀ n ∈ name, PlainName n))
  | some group => inferInstanceAs (Decidable (PlainGroup group))

/-- A referent whose key can be read back. -/
def Referent.Plain : Referent → Prop
  | named name group => PlainlyKeyed (some name) group
  | nameless _ => True

theorem identityOf_group {group : Text} (h : group ≠ []) (name : Text) :
    identityOf name (some group) = group ++ "::".toList ++ name := by
  rw [identityOf, if_neg]
  simpa using h

theorem infix_identityOf {group : Text} (h : group ≠ []) (name : Text) :
    "::".toList <:+: identityOf name (some group) := by
  rw [identityOf_group h]
  exact List.infix_append _ _ _

/-- One group ends no later than the other: what the other has more would begin with a colon. -/
theorem eq_nil_of_separator {more x y : Text} {group : Text} (hg : PlainGroup (group ++ more))
    (h : "::".toList ++ x = more ++ ("::".toList ++ y)) : more = [] := by
  obtain ⟨-, hinfix, hlast⟩ := hg
  rw [show "::".toList = [':', ':'] from rfl] at h hinfix
  match more with
  | [] => rfl
  | [c] =>
    simp only [List.cons_append, List.cons.injEq] at h
    obtain ⟨rfl, -⟩ := h
    simp at hlast
  | c :: d :: more =>
    simp only [List.cons_append, List.cons.injEq] at h
    obtain ⟨rfl, rfl, -⟩ := h
    exact absurd ⟨group, more, by simp⟩ hinfix

theorem eq_of_identityOf_group {name name' group group' : Text} (hg : PlainGroup group)
    (hg' : PlainGroup group')
    (h : identityOf name (some group) = identityOf name' (some group')) :
    name = name' ∧ group = group' := by
  rw [identityOf_group hg.1, identityOf_group hg'.1, List.append_assoc, List.append_assoc] at h
  rcases List.append_eq_append_iff.mp h with ⟨more, rfl, hrest⟩ | ⟨more, rfl, hrest⟩
  · obtain rfl := eq_nil_of_separator hg' hrest
    exact ⟨List.append_cancel_left hrest, by simp⟩
  · obtain rfl := eq_nil_of_separator hg hrest
    exact ⟨(List.append_cancel_left hrest).symm, by simp⟩

theorem namelessIdentity_inj {n k : Nat} (h : namelessIdentity n = namelessIdentity k) :
    n = k := by
  have hdigits : Text.ofNat n = Text.ofNat k := List.append_cancel_left h
  rw [← Text.toNat_ofNat n, hdigits, Text.toNat_ofNat]

theorem not_infix_namelessIdentity (n : Nat) : ¬ "::".toList <:+: namelessIdentity n := by
  intro h
  have hmem : ':' ∈ namelessIdentity n := h.subset (by decide)
  rcases List.mem_append.mp hmem with hmem | hmem
  · exact absurd hmem (by decide)
  · have hdigit := Nat.isDigit_of_mem_toDigits (by omega) (by omega) hmem
    exact absurd hdigit (by decide)

/-- A plain key is not the key of a nameless reference. -/
theorem key_ne_namelessIdentity {name : Text} {group : Option Text}
    (h : (Referent.named name group).Plain) (n : Nat) :
    identityOf name group ≠ namelessIdentity n := by
  intro heq
  cases group with
  | none =>
    have hprefix : "__nameless_".toList <+: namelessIdentity n := List.prefix_append _ _
    rw [← heq] at hprefix
    exact (h name rfl).2 hprefix
  | some group =>
    have hinfix := infix_identityOf h.1 name
    rw [heq] at hinfix
    exact not_infix_namelessIdentity n hinfix

/-- **Plain referents that are written alike are the same.** -/
theorem Referent.eq_of_key_eq {l l' : Referent} (h : l.Plain) (h' : l'.Plain)
    (heq : l.key = l'.key) : l = l' := by
  cases l with
  | nameless n =>
    cases l' with
    | nameless k => rw [namelessIdentity_inj heq]
    | named name' group' => exact absurd heq.symm (key_ne_namelessIdentity h' n)
  | named name group =>
    cases l' with
    | nameless k => exact absurd heq (key_ne_namelessIdentity h k)
    | named name' group' =>
      cases group with
      | none =>
        cases group' with
        | none => rw [show name = name' from heq]
        | some group' =>
          have hinfix := infix_identityOf h'.1 name'
          rw [← show name = identityOf name' (some group') from heq] at hinfix
          exact absurd hinfix (h name rfl).1
      | some group =>
        cases group' with
        | none =>
          have hinfix := infix_identityOf h.1 name
          rw [show identityOf name (some group) = name' from heq] at hinfix
          exact absurd hinfix (h' name' rfl).1
        | some group' =>
          obtain ⟨rfl, rfl⟩ := eq_of_identityOf_group h h' heq
          rfl

end CiteMarkup
