import CiteMarkup.Proofs.Order.Firsts
import CiteMarkup.Proofs.Page.Signs
import CiteMarkup.Proofs.Reference.Accounting
import CiteMarkup.Proofs.Reference.Referents
import CiteMarkup.Proofs.Transform.Identities
/-!
# Records as they are filed

Names and groups that are plainly keyed make the record of a reference the file of its
occurrences: its uses and its definitions in lists are the occurrences with its name and group, in
the order of the page (`uses_of_ref?`, `listed_of_ref?`), and its body is the first one among them
(`content?_of_ref?`).  The records stand in the order in which the page first mentions them
(`refs_recordsFrom`).
-/

namespace CiteMarkup

/-- A name with its group. -/
abbrev Ref := Text × Option Text

/-- What an occurrence refers to, unless it has no name. -/
def Occurrence.ref? (o : Occurrence) : Option Ref := o.name.map fun n => (n, o.group)

/-- What a record is referred to by, unless it has no name. -/
def Record.ref? (r : Record) : Option Ref := r.name.map fun n => (n, r.group)

@[simp] theorem Occurrence.ref?_told (o : Occurrence) : o.told.ref? = o.ref? := rfl

theorem Occurrence.ref?_eq_some {o : Occurrence} {x : Ref} :
    o.ref? = some x ↔ o.name = some x.1 ∧ o.group = x.2 := by
  obtain ⟨n, g⟩ := x
  simp [ref?]

theorem Record.ref?_eq_some {r : Record} {x : Ref} :
    r.ref? = some x ↔ r.name = some x.1 ∧ r.group = x.2 := by
  obtain ⟨n, g⟩ := x
  simp [ref?]

/-! ## 1. Under one key -/

/-- What records with a key hold. -/
def heldUnder (held : Record → List Occurrence) (key : Text) (records : List Record) :
    List Occurrence :=
  (records.filter (·.key == key)).flatMap held

section Held

variable {held : Record → List Occurrence} {keep : Occurrence → Bool} {records : List Record}
variable {r : Record}

theorem filter_key_eq_singleton (hn : (records.map (·.key)).Nodup) (hr : r ∈ records) :
    records.filter (·.key == r.key) = [r] := by
  obtain ⟨front, back, rfl⟩ := List.append_of_mem hr
  rw [List.map_append, List.map_cons, List.nodup_append, List.nodup_cons] at hn
  obtain ⟨-, ⟨hback, -⟩, hfront⟩ := hn
  have hnone : ∀ s, s ∈ front ∨ s ∈ back → s.key ≠ r.key := by
    rintro s (hs | hs) heq
    · exact hfront s.key (List.mem_map_of_mem hs) r.key List.mem_cons_self heq
    · exact hback (heq ▸ List.mem_map_of_mem hs)
  rw [List.filter_append, List.filter_cons_of_pos (by simp),
    List.filter_eq_nil_iff.mpr fun s hs => by simpa using hnone s (.inl hs),
    List.filter_eq_nil_iff.mpr fun s hs => by simpa using hnone s (.inr hs), List.nil_append]

theorem heldUnder_key (hn : (records.map (·.key)).Nodup) (hr : r ∈ records) :
    heldUnder held r.key records = held r := by
  rw [heldUnder, filter_key_eq_singleton hn hr, List.flatMap_singleton]

theorem heldUnder_sortInto
    (hadd : ∀ (r : Record) (o : Occurrence), held (r.add o) = held r ++ [o].filter keep)
    (hnew : ∀ r : Record, r.uses = [] → r.listed = [] → held r = [])
    (hn : (records.map (·.key)).Nodup) (key k : Text) (o : Occurrence) :
    heldUnder held k (sortInto key o records) =
      heldUnder held k records ++ if key = k then [o].filter keep else [] := by
  unfold sortInto
  split
  · rename_i hany
    have hfilter : (records.map fun r => if r.key == key then r.add o else r).filter
        (·.key == k) = (records.filter (·.key == k)).map
          fun r => if r.key == key then r.add o else r := by
      rw [List.filter_map]
      refine congrArg _ (List.filter_congr fun r _ => ?_)
      simp only [Function.comp]
      split <;> simp
    rw [heldUnder, hfilter]
    by_cases hk : key = k
    · subst hk
      obtain ⟨r, hr, hkey⟩ := List.any_eq_true.mp hany
      obtain rfl := eq_of_beq hkey
      rw [heldUnder, filter_key_eq_singleton hn hr]
      simp [hadd]
    · have hsame : ∀ r ∈ records.filter (·.key == k),
          (if r.key == key then r.add o else r) = r := by
        intro r hr
        have hrk := eq_of_beq (List.mem_filter.mp hr).2
        rw [if_neg]
        simpa [hrk] using fun h => hk h.symm
      rw [List.map_congr_left hsame, List.map_id', if_neg hk, List.append_nil, heldUnder]
  · rw [heldUnder, heldUnder, List.filter_append, List.flatMap_append]
    congr 1
    have hopening : held (Record.opening records.length key o) = [o].filter keep := by
      rw [Record.opening, hadd, hnew _ rfl rfl, List.nil_append]
    have hkey : (Record.opening records.length key o).key = key := Record.key_add o _
    by_cases hk : key = k
    · subst hk
      rw [List.filter_cons_of_pos (by simp [hkey]), List.filter_nil, List.flatMap_singleton,
        hopening, if_pos rfl]
    · rw [List.filter_cons_of_neg (by simpa [hkey] using hk), if_neg hk]
      rfl

/-- Records hold what is filed under their key, in order. -/
theorem heldUnder_recordsFrom
    (hadd : ∀ (r : Record) (o : Occurrence), held (r.add o) = held r ++ [o].filter keep)
    (hnew : ∀ r : Record, r.uses = [] → r.listed = [] → held r = []) {os : List Occurrence}
    (ho : ∀ o ∈ os, o.name ≠ some []) {n : Nat} (h : Numbered records) (key : Text) :
    heldUnder held key (recordsFrom n records os) =
      heldUnder held key records ++ (filed n os key).filter keep := by
  induction os generalizing n records with
  | nil => simp [recordsFrom, filed, resolved]
  | cons o os ih =>
    have hkey := keyOf_eq (ho o List.mem_cons_self) n
    rw [recordsFrom_cons, ih (fun a ha => ho a (List.mem_cons_of_mem _ ha)) (h.sortInto _ o),
      heldUnder_sortInto hadd hnew h.keys, List.append_assoc, hkey]
    refine congrArg _ ?_
    by_cases hk : (o.referentAt n).key = key
    · cases hko : keep o <;> simp [filed, resolved, hk, hko]
    · simp [filed, resolved, hk]

end Held

/-! ## 2. Records with a name -/

section Named

variable {os : List Occurrence} {r : Record} {x : Ref}

/-- Plain names and groups are told apart by their identities. -/
theorem identityOf_inj {n n' : Text} {g g' : Option Text} (h : PlainlyKeyed (some n) g)
    (h' : PlainlyKeyed (some n') g') (heq : identityOf n g = identityOf n' g') :
    n = n' ∧ g = g' := by
  have hplain : (Referent.named n g).Plain := h
  have hplain' : (Referent.named n' g').Plain := h'
  have hsame : Referent.named n g = .named n' g' := Referent.eq_of_key_eq hplain hplain' heq
  exact ⟨(Referent.named.inj hsame).1, (Referent.named.inj hsame).2⟩

theorem filed_of_ref? (hplain : ∀ o ∈ os, PlainlyKeyed o.name o.group) {n : Text}
    {g : Option Text} (hng : PlainlyKeyed (some n) g) :
    filed 0 os (identityOf n g) = os.filter fun o => o.ref? = some (n, g) := by
  have hsame : ∀ y ∈ resolved 0 os,
      (y.2.key == identityOf n g) = decide (y.1.ref? = some (n, g)) := by
    rintro ⟨o, l⟩ hol
    have hpo := hplain o (mem_of_mem_resolved hol)
    cases hname : o.name with
    | none =>
      obtain ⟨k, -, rfl⟩ := referent_of_nameless hol hname
      have hne := key_ne_namelessIdentity (show (Referent.named n g).Plain from hng) k
      have href : o.ref? = none := by rw [Occurrence.ref?, hname]; rfl
      rw [href]
      simpa [Referent.key] using hne.symm
    | some name =>
      obtain rfl := referent_of_name hol hname
      rw [hname] at hpo
      have hiff : (Referent.named name o.group).key = identityOf n g ↔
          o.ref? = some (n, g) := by
        rw [Occurrence.ref?_eq_some, hname]
        constructor
        · intro heq
          obtain ⟨rfl, hgroup⟩ := identityOf_inj hpo hng heq
          exact ⟨rfl, hgroup⟩
        · rintro ⟨hn, hg⟩
          rw [Option.some.inj hn, hg]
          rfl
      rw [Bool.eq_iff_iff, beq_iff_eq, decide_eq_true_eq]
      exact hiff
  rw [filed, List.filter_congr hsame]
  have hmap : os.filter (fun o => o.ref? = some (n, g)) =
      ((resolved 0 os).map (·.1)).filter fun o => o.ref? = some (n, g) := by
    rw [map_fst_resolved]
  rw [hmap, List.filter_map]
  rfl

variable (ho : ∀ o ∈ os, o.name ≠ some []) (hplain : ∀ o ∈ os, PlainlyKeyed o.name o.group)
include ho

theorem held_eq_filed {held : Record → List Occurrence} {keep : Occurrence → Bool}
    (hadd : ∀ (r : Record) (o : Occurrence), held (r.add o) = held r ++ [o].filter keep)
    (hnew : ∀ r : Record, r.uses = [] → r.listed = [] → held r = [])
    (hr : r ∈ recordsFrom 0 [] os) : held r = (filed 0 os r.key).filter keep := by
  have hnil : Numbered [] := numbered_recordsFrom []
  rw [← @heldUnder_key held _ _ (numbered_recordsFrom os).keys hr,
    heldUnder_recordsFrom hadd hnew ho hnil]
  rfl

theorem uses_eq_filed (hr : r ∈ recordsFrom 0 [] os) :
    r.uses = (filed 0 os r.key).filter fun o => !o.isListed :=
  held_eq_filed ho (fun r o => Record.uses_add o r) (fun _ h _ => h) hr

theorem listed_eq_filed (hr : r ∈ recordsFrom 0 [] os) :
    r.listed = (filed 0 os r.key).filter (·.isListed) :=
  held_eq_filed ho (fun r o => Record.listed_add o r) (fun _ _ h => h) hr

include hplain

theorem key_of_ref? (hr : r ∈ recordsFrom 0 [] os) (hx : r.ref? = some x) :
    r.key = identityOf x.1 x.2 ∧ PlainlyKeyed (some x.1) x.2 := by
  obtain ⟨hname, hgroup⟩ := Record.ref?_eq_some.mp hx
  have hid := identified_recordsFrom ho r hr x.1 hname
  have hplain' : PlainlyKeyed r.name r.group :=
    forall_recordsFrom (motive := fun r => PlainlyKeyed r.name r.group)
      (fun r o h => by
        unfold Record.add
        split <;> exact h)
      (fun o ho index n => by
        unfold Record.opening Record.add
        split <;> exact hplain o ho) (by simp) r hr
  rw [hname, hgroup] at hplain'
  exact ⟨hgroup ▸ hid.2, hplain'⟩

/-- **The uses of a record** are the uses with its name and group. -/
theorem uses_of_ref? (hr : r ∈ recordsFrom 0 [] os) (hx : r.ref? = some x) :
    r.uses = os.filter fun o => o.ref? = some x ∧ o.isListed = false := by
  obtain ⟨hkey, hng⟩ := key_of_ref? ho hplain hr hx
  rw [uses_eq_filed ho hr, hkey, filed_of_ref? hplain hng, List.filter_filter]
  refine List.filter_congr fun o _ => ?_
  cases o.isListed <;> simp

/-- **The definitions of a record in lists** are those with its name and group. -/
theorem listed_of_ref? (hr : r ∈ recordsFrom 0 [] os) (hx : r.ref? = some x) :
    r.listed = os.filter fun o => o.ref? = some x ∧ o.isListed = true := by
  obtain ⟨hkey, hng⟩ := key_of_ref? ho hplain hr hx
  rw [listed_eq_filed ho hr, hkey, filed_of_ref? hplain hng, List.filter_filter]
  refine List.filter_congr fun o _ => ?_
  cases o.isListed <;> simp

end Named

/-! ## 3. The order of records -/

section Order

variable {records : List Record} {os : List Occurrence}

/-- The records are keyed by their names and groups, or by a number. -/
def KeyedPlainly (records : List Record) : Prop :=
  ∀ r ∈ records, (∃ x, r.ref? = some x ∧ r.key = identityOf x.1 x.2 ∧
    PlainlyKeyed (some x.1) x.2) ∨ r.ref? = none ∧ ∃ k, r.key = namelessIdentity k

theorem ref?_add (r : Record) (o : Occurrence) : (r.add o).ref? = r.ref? := by
  unfold Record.add
  split <;> rfl

theorem ref?_opening (index : Nat) (key : Text) (o : Occurrence) :
    (Record.opening index key o).ref? = o.ref? := ref?_add _ o

theorem keyOf_of_ref? {o : Occurrence} (ho : o.name ≠ some []) (n : Nat) :
    (∃ x, o.ref? = some x ∧ (keyOf n o).1 = identityOf x.1 x.2) ∨
      o.ref? = none ∧ (keyOf n o).1 = namelessIdentity n := by
  rw [keyOf_eq ho]
  cases hname : o.name with
  | none =>
    exact .inr ⟨by rw [Occurrence.ref?, hname]; rfl, by rw [Occurrence.referentAt, hname]; rfl⟩
  | some name =>
    exact .inl ⟨(name, o.group), by rw [Occurrence.ref?, hname]; rfl,
      by rw [Occurrence.referentAt, hname]; rfl⟩

variable {o : Occurrence} (ho : o.name ≠ some []) (hplain : PlainlyKeyed o.name o.group)
include ho hplain

theorem KeyedPlainly.sortInto (h : KeyedPlainly records) (n : Nat) :
    KeyedPlainly (sortInto (keyOf n o).1 o records) := by
  intro r hr
  rcases mem_sortInto _ _ hr with hr | ⟨s, hs, rfl⟩ | rfl
  · exact h r hr
  · rw [ref?_add, Record.key_add]
    exact h s hs
  · have hkey : (Record.opening records.length (keyOf n o).1 o).key = (keyOf n o).1 :=
      Record.key_add o _
    rw [ref?_opening, hkey]
    rcases keyOf_of_ref? ho n with ⟨x, hx, hkey⟩ | ⟨hx, hkey⟩
    · have hname := (Occurrence.ref?_eq_some.mp hx)
      rw [hname.1, hname.2] at hplain
      exact .inl ⟨x, hx, hkey, hplain⟩
    · exact .inr ⟨hx, n, hkey⟩

/-- A record is joined by what refers to it. -/
theorem KeyedPlainly.any_key (h : KeyedPlainly records) (n : Nat) {x : Ref}
    (hx : o.ref? = some x) :
    (records.any fun r => r.key == (keyOf n o).1) = true ↔ x ∈ records.filterMap (·.ref?) := by
  have hname := Occurrence.ref?_eq_some.mp hx
  rw [hname.1, hname.2] at hplain
  have hkey : (keyOf n o).1 = identityOf x.1 x.2 := by
    rcases keyOf_of_ref? ho n with ⟨y, hy, hkey⟩ | ⟨hnone, -⟩
    · rw [hkey, Option.some.inj (hy.symm.trans hx)]
    · rw [hnone] at hx
      cases hx
  rw [List.any_eq_true, List.mem_filterMap, hkey]
  constructor
  · rintro ⟨r, hr, heq⟩
    have heq := eq_of_beq heq
    refine ⟨r, hr, ?_⟩
    rcases h r hr with ⟨y, hy, hrk, hyplain⟩ | ⟨-, k, hrk⟩
    · obtain ⟨hnames, hgroups⟩ := identityOf_inj hyplain hplain (hrk.symm.trans heq)
      rw [hy, Prod.ext hnames hgroups]
    · exact absurd (heq.symm.trans hrk) (key_ne_namelessIdentity hplain k)
  · rintro ⟨r, hr, hrx⟩
    refine ⟨r, hr, ?_⟩
    rcases h r hr with ⟨y, hy, hrk, -⟩ | ⟨hnone, -⟩
    · rw [hrk, Option.some.inj (hy.symm.trans hrx)]
      exact beq_self_eq_true _
    · rw [hnone] at hrx
      cases hrx

/-- What the records refer to after one more occurrence. -/
theorem KeyedPlainly.refs_sortInto (h : KeyedPlainly records) (n : Nat) :
    (CiteMarkup.sortInto (keyOf n o).1 o records).filterMap (·.ref?) =
      records.filterMap (·.ref?) ++
        o.ref?.toList.removeAll (records.filterMap (·.ref?)) := by
  have hsame : ∀ key, (records.map fun r => if r.key == key then r.add o else r).filterMap
      (·.ref?) = records.filterMap (·.ref?) := by
    intro key
    rw [List.filterMap_map]
    refine List.filterMap_congr fun r _ => ?_
    simp only [Function.comp]
    split
    · exact ref?_add r o
    · rfl
  unfold CiteMarkup.sortInto
  cases hx : o.ref? with
  | none =>
    split
    · rw [hsame]
      exact (List.append_nil _).symm
    · rw [List.filterMap_append, List.filterMap_cons_none (by rw [ref?_opening, hx])]
      rfl
  | some x =>
    have hany := h.any_key ho hplain n hx
    split
    · rename_i hkey
      have hmem := hany.mp hkey
      rw [hsame, List.removeAll, Option.toList_some,
        List.filter_cons_of_neg (by simpa only [List.elem_eq_mem, hmem] using by simp)]
      exact (List.append_nil _).symm
    · rename_i hkey
      have hmem := mt hany.mpr hkey
      rw [List.filterMap_append, List.filterMap_cons_some (by rw [ref?_opening, hx]),
        List.filterMap_nil, List.removeAll, Option.toList_some, List.filter_cons_of_pos]
      · rfl
      · rw [List.elem_eq_mem, decide_eq_false hmem]
        rfl

omit ho hplain

/-- **Records stand in the order of first mention.** -/
theorem refs_recordsFrom_aux (ho : ∀ o ∈ os, o.name ≠ some [])
    (hplain : ∀ o ∈ os, PlainlyKeyed o.name o.group) (h : KeyedPlainly records) (n : Nat) :
    (recordsFrom n records os).filterMap (·.ref?) = records.filterMap (·.ref?) ++
      ((os.filterMap (·.ref?)).removeAll (records.filterMap (·.ref?))).eraseDups := by
  induction os generalizing n records with
  | nil => simp [recordsFrom, List.removeAll]
  | cons o os ih =>
    have ho' := ho o List.mem_cons_self
    have hp' := hplain o List.mem_cons_self
    rw [recordsFrom_cons, ih (fun a ha => ho a (List.mem_cons_of_mem _ ha))
      (fun a ha => hplain a (List.mem_cons_of_mem _ ha)) (h.sortInto ho' hp' n),
      h.refs_sortInto ho' hp' n]
    generalize records.filterMap (·.ref?) = refs
    cases hx : o.ref? with
    | none => rw [List.filterMap_cons_none hx]; simp [List.removeAll]
    | some x =>
      rw [List.filterMap_cons_some hx]
      simp only [List.removeAll, Option.toList_some]
      by_cases hmem : x ∈ refs
      · simp [hmem]
      · have hpos : (fun y => !List.elem y refs) x = true := by simpa using hmem
        rw [List.filter_cons_of_pos (p := fun y => !List.elem y refs) hpos,
          List.filter_cons_of_pos (p := fun y => !List.elem y refs) hpos, List.filter_nil,
          List.eraseDups_cons, List.append_assoc, List.singleton_append, List.filter_filter]
        congr 3
        refine List.filter_congr fun y _ => ?_
        rw [List.elem_eq_mem, List.elem_eq_mem, Bool.eq_iff_iff]
        simp [and_comm]

theorem refs_recordsFrom (ho : ∀ o ∈ os, o.name ≠ some [])
    (hplain : ∀ o ∈ os, PlainlyKeyed o.name o.group) :
    (recordsFrom 0 [] os).filterMap (·.ref?) = (os.filterMap (·.ref?)).eraseDups := by
  rw [refs_recordsFrom_aux ho hplain (by simp [KeyedPlainly])]
  simp [List.removeAll]

end Order

/-! ## 4. The order of occurrences -/

namespace Page

variable {p : Page} {names : List Text}

/-- What stands behind a list begins behind its end. -/
theorem stop_le_of_list {s : Template} {k : Token} (hs : .list s ∈ p.tokens names)
    (hk : k ∈ p.tokens names) (hlt : s.span.start < k.span.start) : s.span.stop ≤ k.span.start := by
  have hlist := mem_tokens_list.mp hs
  have hout : ∀ {i : Nat}, p.inList names i = false → s.span.start < i → s.span.stop ≤ i := by
    intro i hi hlt
    have := not_inList_of_mem hlist hi
    omega
  cases k with
  | tag t =>
    refine hout ?_ hlt
    simpa using (List.mem_filter.mp (mem_tokens_tag.mp hk)).2
  | list t =>
    rcases apart_of_reading_eq hs hk rfl with heq | hapart | hapart
    · rw [Token.list.inj heq] at hlt
      exact absurd hlt (Nat.lt_irrefl _)
    · exact hapart
    · have hspan := (span_of_mem_tokens hk).1
      simp only [Token.span_list] at *
      omega
  | chain t =>
    have hmem := (List.mem_filter.mp (mem_citeMarks_of_chain hk)).2
    simp only [Bool.and_eq_true, Bool.not_eq_true'] at hmem
    exact hout hmem.1 hlt
  | locator t =>
    rcases mem_tokens.mp hk with ⟨_, -, h⟩ | ⟨_, -, h⟩ | ⟨c, hc, h⟩
    · cases h
    · cases h
    · have hmem := (List.mem_filter.mp hc).2
      simp only [Bool.and_eq_true, Bool.not_eq_true'] at hmem
      have hspan : c.span = t.span := by rw [← Token.span_ofTemplate, h, Token.span_locator]
      rw [Token.span_locator, ← hspan] at hlt ⊢
      exact hout hmem.1 hlt

section Among

variable {ks : List Token}

/-- An occurrence begins no earlier than one of the marks it is read from. -/
theorem exists_start_le_of_mem_occurrencesAmong (hks : ∀ k ∈ ks, k ∈ p.tokens names) {n : Nat}
    {o : Occurrence} (ho : o ∈ p.occurrencesAmong n ks) : ∃ k ∈ ks, k.span.start ≤ o.start := by
  rcases mem_occurrencesAmong.mp ho with ⟨t, ht, rfl⟩ | ⟨t, ht, hl⟩ | ⟨c, hc, hoc⟩
  · exact ⟨_, ht, Nat.le_refl _⟩
  · have hi := isInvocation_of_mem_templates (mem_tokens_list.mp (hks _ ht))
    have hspan := (hi.span_of_mem_listedIn hl).1
    refine ⟨_, ht, ?_⟩
    change t.span.start ≤ o.span.start
    omega
  · exact ⟨_, (mem_chainsAmong hc).2.1, Nat.le_of_eq (Chain.isListed_occurrences hoc).2.symm⟩

/-- Marks that come one after the other have their occurrences in that order.  What a mark tells
ends before the next mark begins. -/
theorem pairwise_occurrencesAmong (hks : ∀ k ∈ ks, k ∈ p.tokens names)
    (hlt : ks.Pairwise fun k l => k.span.start < l.span.start) (n : Nat) :
    (p.occurrencesAmong n ks).Pairwise fun o o' => o.start ≤ o'.start := by
  induction ks generalizing n with
  | nil => exact .nil
  | cons k ks ih =>
    obtain ⟨hk, hlt⟩ := List.pairwise_cons.mp hlt
    have hmem : ∀ l ∈ ks, l ∈ p.tokens names := fun l hl => hks l (List.mem_cons_of_mem _ hl)
    have hrest := ih hmem hlt
    cases k with
    | tag t =>
      refine List.pairwise_cons.mpr ⟨fun o ho => ?_, hrest n⟩
      obtain ⟨l, hl, hle⟩ := exists_start_le_of_mem_occurrencesAmong hmem ho
      have hfirst := hk l hl
      have hstart : t.occurrence.start = t.span.start := rfl
      simp only [Token.span_tag] at hfirst
      omega
    | locator t => exact hrest n
    | chain t =>
      refine List.pairwise_append.mpr ⟨?_, hrest (n + 1), fun o ho o' ho' => ?_⟩
      · refine List.pairwise_of_forall_mem_list fun a ha b hb => Nat.le_of_eq ?_
        rw [(Chain.isListed_occurrences ha).2, (Chain.isListed_occurrences hb).2]
      · obtain ⟨l, hl, hle⟩ := exists_start_le_of_mem_occurrencesAmong hmem ho'
        have hfirst := hk l hl
        have hstart : o.start = t.span.start := (Chain.isListed_occurrences ho).2
        simp only [Token.span_chain] at hfirst
        omega
    | list t =>
      have hlist := hks _ List.mem_cons_self
      have hi := isInvocation_of_mem_templates (mem_tokens_list.mp hlist)
      refine List.pairwise_append.mpr ⟨?_, hrest n, fun o ho o' ho' => ?_⟩
      · refine (pairwise_listedIn p t).imp_of_mem fun {a b} ha _ hab => ?_
        have hspan := (hi.span_of_mem_listedIn ha).2.1
        change a.span.start ≤ b.span.start
        omega
      · obtain ⟨l, hl, hle⟩ := exists_start_le_of_mem_occurrencesAmong hmem ho'
        have hstop := stop_le_of_list hlist (hmem l hl) (hk l hl)
        have hspan := hi.span_of_mem_listedIn ho
        change o.span.start ≤ o'.start
        omega

end Among

/-- **The occurrences of a page come one after the other.** -/
theorem pairwise_occurrences (p : Page) (names : List Text) :
    (p.survey names).occurrences.Pairwise fun o o' => o.start ≤ o'.start := by
  rw [survey_eq]
  exact pairwise_occurrencesAmong (fun _ h => h) (pairwise_lt_tokens p names) 0

/-- They stand in order as they are found. -/
theorem sortByStart_occurrences (p : Page) (names : List Text) :
    sortByStart Occurrence.start (p.survey names).occurrences = (p.survey names).occurrences :=
  sortStable_of_pairwise ((pairwise_occurrences p names).imp fun h => decide_eq_true h)

end Page
end CiteMarkup
