import CiteMarkup.Chain.Joining
import CiteMarkup.Proofs.Chain.Keys
import CiteMarkup.Proofs.Template.Brackets
/-!
# Reading back what has been written

A chain that is written from links is read back as these links (`readLinks_linkParams`), if its
values can stand in a chain: they leave no bracket open, and no bar in them counts
(`IsClosed`).  Then the segments of the written text are the parameters that it was written
from (`segments_join`), each is cut at the sign behind its key, and each key says which name
it belongs to.
-/

namespace CiteMarkup

/-! ## 1. Keys and values -/

/-- A key that is found again as it was written. -/
structure IsEntryKey (key : Text) : Prop where
  nonempty : key ≠ []
  trimmed : key.Trimmed
  label : IsLabel key

theorem isEntryKey_of_isKey {key : Text} (hkey : IsKey key) : IsEntryKey key :=
  ⟨hkey.1, trimmed_of_isKey hkey, isLabel_of_isKey hkey⟩

/-- An assignment that is read is the one that was written. -/
theorem ofSegment_assignment {key value : Text} (hkey : IsEntryKey key) (hv : IsValue value) :
    (Assignment.ofSegment (assignment key value)).key = key ∧
      (Assignment.ofSegment (assignment key value)).value = value := by
  have htrim : (assignment key value).trim = assignment key value :=
    (hkey.trimmed.append hv.trimmed hkey.nonempty hv.nonempty ['=']).trim_eq
  have hsign : equalsSign? (assignment key value) = some key.length :=
    equalsSign?_label hkey.label value
  simp only [Assignment.ofSegment, htrim, hsign]
  have hdrop : (assignment key value).drop (key.length + 1) = value := by
    rw [assignment, List.drop_length_add_append]
    rfl
  rw [assignment, List.take_left, hkey.trimmed.trim_eq, ← assignment, hdrop,
    hv.trimmed.trim_eq]
  exact ⟨rfl, rfl⟩

/-- A value without a sign has no key. -/
theorem ofSegment_bare {value : Text} (hv : IsValue value) (hsign : '=' ∉ value) :
    (Assignment.ofSegment value).key = [] ∧ (Assignment.ofSegment value).value = value := by
  simp only [Assignment.ofSegment, hv.trimmed.trim_eq, equalsSign?_of_not_mem hsign, and_self]

/-! ## 2. What a key means -/

/-- The keys that links are written with, and what they stand for. -/
def linkKeys : List (Text × Role) :=
  [("group".toList, .group), ("p".toList, .page), ("pp".toList, .pages), ("loc".toList, .place)]

/-- **A key with an index says what it was written for.** -/
theorem keyMeaning_of_linkKey {key digits : Text} {role : Role} (hkey : (key, role) ∈ linkKeys)
    (h : digits.all isAsciiDigit = true) :
    KeyMeaning.of (key ++ digits) = .part role (indexOf digits) := by
  have hall : ∀ k ∈ linkKeys, k.1 ≠ [] ∧ k.1.getLast?.all (!isAsciiDigit ·) = true ∧
      KeyMeaning.of k.1 = .part k.2 none := by decide
  obtain ⟨hne, hlast, hmeaning⟩ := hall _ hkey
  have hend : EndsInNoDigit key := fun c hc => by
    simpa using (Option.all_eq_true _ _).mp hlast c hc
  rw [keyMeaning_append hne hend h, hmeaning]
  rfl

/-- A key that says something known is a label. -/
theorem isLabel_of_role {key : Text} (h : (KeyMeaning.of key).role ≠ .other) : IsLabel key := by
  have hforeign : ∀ c ∈ ['|', '=', '{', '[', '}', ']'], IsForeign c := by
    have hdigit : ['|', '=', '{', '[', '}', ']'].all (!isAsciiDigit ·) = true := by decide
    have hwords : ['|', '=', '{', '[', '}', ']'].all
        (fun c => keyWords.all (asciiLower c ∉ ·)) = true := by decide
    intro c hc
    refine ⟨by simpa using List.all_eq_true.mp hdigit c hc, fun w hw => ?_⟩
    exact of_decide_eq_true (List.all_eq_true.mp (List.all_eq_true.mp hwords c hc) w hw)
  intro c hc hmem
  exact not_mem_of_role h (hforeign c hmem) hc

/-! ## 3. Entries -/

/-- The entries in segments, without their places. -/
def readEntries : Tally → (segments : List Text) → List Entry
  | _, [] => []
  | s, segment :: rest =>
    if segment.isBlankOnly then readEntries s rest
    else
      let a := Assignment.ofSegment segment
      let (role, index, s') := s.count (KeyMeaning.of a.key)
      if a.value.isEmpty then readEntries s' rest
      else
        { key := Text.nonempty? a.key, value := a.value, role := role, index := max index 1 }
          :: readEntries (s'.keep role index) rest

theorem map_toEntry_entriesFrom (segments : List Text) (offset : Nat) (s : Tally) :
    (entriesFrom offset s segments).map (·.toEntry) = readEntries s segments := by
  induction segments generalizing offset s with
  | nil => rfl
  | cons segment rest ih =>
    rw [entriesFrom, readEntries]
    split
    · exact ih _ _
    · simp only
      split
      · exact ih _ _
      · rw [List.map_cons, ih]

/-- An entry as it is read: it has a value, and the role that its key says. -/
structure Entry.IsRead (e : Entry) : Prop where
  value : IsValue e.value
  keyless : e.key = none → e.role = .name
  keyed : ∀ k ∈ e.key, k ≠ [] ∧ k.Trimmed ∧ e.role = (KeyMeaning.of k).role

theorem trimmed_key (segment : Text) : Text.Trimmed (Assignment.ofSegment segment).key := by
  simp only [Assignment.ofSegment]
  split
  · exact Text.trimmed_trim _
  · exact ⟨by simp, by simp⟩

theorem trimmed_value (segment : Text) : Text.Trimmed (Assignment.ofSegment segment).value := by
  simp only [Assignment.ofSegment]
  split <;> exact Text.trimmed_trim _

/-- The entries in segments are as they are read. -/
theorem isRead_of_mem_readEntries {segments : List Text} {s : Tally} {e : Entry}
    (h : e ∈ readEntries s segments) : e.IsRead := by
  induction segments generalizing s with
  | nil => cases h
  | cons segment rest ih =>
    rw [readEntries] at h
    split at h
    · exact ih h
    · simp only at h
      split at h
      · exact ih h
      · rename_i hvalue
        rcases List.mem_cons.mp h with rfl | h
        · have hrole := s.role_count (KeyMeaning.of (Assignment.ofSegment segment).key)
          refine ⟨⟨by simpa using hvalue, trimmed_value segment⟩, fun hnone => ?_, fun k hk => ?_⟩
          · have hkey : (Assignment.ofSegment segment).key = [] := by
              by_contra hne
              cases (nonempty?_of_ne hne).symm.trans hnone
            exact hrole.trans (by rw [hkey]; rfl)
          · obtain rfl := eq_of_nonempty? hk
            refine ⟨?_, trimmed_key segment, hrole⟩
            intro hnil
            rw [hnil] at hk
            cases hk
        · exact ih h

section Entries

variable {key v : Text} {s s' : Tally} {role : Role} {index : Nat}

theorem not_isBlankOnly (h : v.Trimmed) (hne : v ≠ []) : v.isBlankOnly = false := by
  rw [Bool.eq_false_iff]
  intro hblank
  obtain ⟨c, r, rfl⟩ := List.exists_cons_of_ne_nil hne
  have hc := h.head c rfl
  rw [List.all_eq_true.mp hblank c List.mem_cons_self] at hc
  cases hc

/-- An assignment is one entry. -/
theorem readEntries_assignment (hkey : IsEntryKey key) (hv : IsValue v)
    (hcount : s.count (KeyMeaning.of key) = (role, index, s')) (rest : List Text) :
    readEntries s (assignment key v :: rest) =
      ⟨some key, v, role, max index 1⟩ :: readEntries (s'.keep role index) rest := by
  obtain ⟨hk, hval⟩ := ofSegment_assignment hkey hv
  have htrimmed := hkey.trimmed.append hv.trimmed hkey.nonempty hv.nonempty ['=']
  have hblank : (assignment key v).isBlankOnly = false :=
    not_isBlankOnly htrimmed (by simp [assignment])
  have hempty : v.isEmpty = false := List.isEmpty_eq_false_iff.mpr hv.nonempty
  rw [readEntries, hblank]
  simp only [hk, hval, hcount, hempty, nonempty?_of_ne hkey.nonempty, Bool.false_eq_true,
    if_false]

/-- A value without a sign is a name at the next free position. -/
theorem readEntries_bare (hv : IsValue v) (hsign : '=' ∉ v) (rest : List Text) :
    readEntries s (v :: rest) = ⟨none, v, .name, s.names + 1⟩ ::
      readEntries { s with names := s.names + 1, latest := s.names + 1 } rest := by
  obtain ⟨hk, hval⟩ := ofSegment_bare hv hsign
  have hblank := not_isBlankOnly hv.trimmed hv.nonempty
  have hempty : v.isEmpty = false := List.isEmpty_eq_false_iff.mpr hv.nonempty
  have hcount : s.count (KeyMeaning.of []) = (.name, s.names + 1,
      { s with names := s.names + 1, latest := s.names + 1 }) := rfl
  rw [readEntries, hblank]
  simp only [hk, hval, hcount, hempty, Bool.false_eq_true, if_false]
  simp [Text.nonempty?, Tally.keep]

end Entries

/-! ## 4. Links -/

/-- What a link says in a role, apart from its name. -/
def Link.part (l : Link) : Role → Option Text
  | .group => l.group
  | .page => l.page
  | .pages => l.pages
  | .place => l.place
  | .name | .other => none

/-- All that a link says. -/
def Link.values (l : Link) : List Text := l.name :: linkKeys.filterMap fun k => l.part k.2

/-- A part of the link at position `i` as it is written. -/
def Link.paramOf (l : Link) (i : Nat) (k : Text × Role) : Option Text :=
  linkParam? k.1 i (l.part k.2)

/-- A part of the link at position `i` as it is read. -/
def Link.entryOf (l : Link) (i : Nat) (k : Text × Role) : Option Entry :=
  (l.part k.2).map fun v => ⟨some (k.1 ++ indexSuffix i), v, k.2, i⟩

/-- The name of the link at position `i` as it is read. -/
def Link.nameEntry (l : Link) (i count : Nat) : Entry :=
  ⟨if needsNoKey l.name i count then none else some (Text.ofNat i), l.name, .name, i⟩

/-- The entries of links from position `i` on, `count` of them without a key having come
before. -/
def linkEntriesFrom : (i count : Nat) → List Link → List Entry
  | _, _, [] => []
  | i, count, l :: r =>
    l.nameEntry i count :: linkKeys.filterMap (l.entryOf i) ++
      linkEntriesFrom (i + 1) (if needsNoKey l.name i count then count + 1 else count) r

theorem Link.params_eq (l : Link) (i count : Nat) :
    l.params i count = nameParam l.name i count :: linkKeys.filterMap (l.paramOf i) := rfl

section Links

variable {l : Link} {links : List Link} {s : Tally} {i : Nat}

theorem isKey_linkKey {k : Text × Role} (hk : k ∈ linkKeys) (i : Nat) :
    IsKey (k.1 ++ indexSuffix i) := by
  have hall : linkKeys.all (fun k => !k.1.isEmpty && k.1.all isAsciiLetter) = true := by decide
  obtain ⟨hne, hletters⟩ := Bool.and_eq_true_iff.mp (List.all_eq_true.mp hall k hk)
  refine ⟨by simpa using fun h => absurd h (by simpa using hne), fun c hc => ?_⟩
  rcases List.mem_append.mp hc with hc | hc
  · rw [List.all_eq_true.mp hletters c hc, Bool.true_or]
  · rw [List.all_eq_true.mp (all_indexSuffix i) c hc, Bool.or_true]

/-- A part is counted for the latest name. -/
theorem count_linkKey {k : Text × Role} (hk : k ∈ linkKeys) (hi : 1 ≤ i) (hlatest : s.latest = i) :
    ∃ s', s.count (KeyMeaning.of (k.1 ++ indexSuffix i)) = (k.2, i, s') ∧
      s'.names = s.names ∧ s'.latest = s.latest := by
  have hmeaning := keyMeaning_of_linkKey hk (all_indexSuffix i)
  rw [indexOf_indexSuffix] at hmeaning
  have hrole : (KeyMeaning.of (k.1 ++ indexSuffix i)).role = k.2 := by rw [hmeaning]; rfl
  have hindex : (KeyMeaning.of (k.1 ++ indexSuffix i)).index = if 1 < i then some i else none := by
    rw [hmeaning]
    rfl
  obtain ⟨hname, hother⟩ := role_of_part hmeaning
  have hcount := Tally.count_part (hrole ▸ hname) (by rw [hindex]; split <;> simp; omega) hi hlatest
    fun h => absurd (hrole.symm.trans h) hother
  have hat : (KeyMeaning.of (k.1 ++ indexSuffix i)).index.getD i = i := by
    rw [hindex]
    split <;> rfl
  rwa [hrole, hat] at hcount

/-- The parts of a link are read as its parts. -/
theorem readEntries_parts (hi : 1 ≤ i) {keys : List (Text × Role)}
    (hkeys : ∀ k ∈ keys, k ∈ linkKeys)
    (hvalues : ∀ v ∈ l.values, IsValue v) (hlatest : s.latest = i) (rest : List Text) :
    ∃ s', readEntries s (keys.filterMap (l.paramOf i) ++ rest) =
        keys.filterMap (l.entryOf i) ++ readEntries s' rest ∧
      s'.names = s.names ∧ s'.latest = s.latest := by
  induction keys generalizing s with
  | nil => exact ⟨s, rfl, rfl, rfl⟩
  | cons k keys ih =>
    have hk := hkeys k List.mem_cons_self
    have hrest := fun s (hs : s.latest = i) =>
      ih (s := s) (fun x hx => hkeys x (List.mem_cons_of_mem _ hx)) hs
    cases hpart : l.part k.2 with
    | none =>
      have hparam : l.paramOf i k = none := by simp [Link.paramOf, hpart, linkParam?]
      have hentry : l.entryOf i k = none := by simp [Link.entryOf, hpart]
      rw [List.filterMap_cons_none hparam, List.filterMap_cons_none hentry]
      exact hrest s hlatest
    | some v =>
      have hv : IsValue v :=
        hvalues v (List.mem_cons_of_mem _ (List.mem_filterMap.mpr ⟨k, hk, hpart⟩))
      have hparam : l.paramOf i k = some (assignment (k.1 ++ indexSuffix i) v) := by
        simp [Link.paramOf, hpart, linkParam?, nonempty?_of_ne hv.nonempty]
      have hentry : l.entryOf i k = some ⟨some (k.1 ++ indexSuffix i), v, k.2, i⟩ := by
        simp [Link.entryOf, hpart]
      obtain ⟨s', hcount, hnames, hlatest'⟩ := count_linkKey hk hi hlatest
      have hrole : k.2 ≠ .name := by
        have hall : ∀ k ∈ linkKeys, k.2 ≠ .name := by decide
        exact hall k hk
      have hkeep : s'.keep k.2 i = s' := if_neg hrole
      obtain ⟨s'', heq, hnames', hlatest''⟩ := hrest s' (hlatest'.trans hlatest)
      refine ⟨s'', ?_, hnames'.trans hnames, hlatest''.trans hlatest'⟩
      rw [List.filterMap_cons_some hparam, List.filterMap_cons_some hentry, List.cons_append,
        readEntries_assignment (isEntryKey_of_isKey (isKey_linkKey hk i)) hv hcount,
        hkeep, heq, Nat.max_eq_left hi,
        List.cons_append]

/-- **Written links are read as their entries.** -/
theorem readEntries_linkParamsFrom (hvalues : ∀ l ∈ links, ∀ v ∈ l.values, IsValue v)
    (i count : Nat) (hs : s.names + 1 = i) :
    readEntries s (linkParamsFrom i count links) = linkEntriesFrom i count links := by
  induction links generalizing s i count with
  | nil => rfl
  | cons l links ih =>
    have hl := hvalues l List.mem_cons_self
    have hname : IsValue l.name := hl l.name List.mem_cons_self
    -- behind its name, the link at position `i` is the latest of `i` names
    have hfirst : ∃ s', s'.names = i ∧ s'.latest = i ∧ ∀ rest,
        readEntries s (nameParam l.name i count :: rest) =
          l.nameEntry i count :: readEntries s' rest := by
      unfold nameParam Link.nameEntry
      split
      · rename_i hno
        have hsign : '=' ∉ l.name := by
          have := (Bool.and_eq_true_iff.mp hno).1
          simpa using this
        refine ⟨{ s with names := s.names + 1, latest := s.names + 1 }, hs, hs, fun rest => ?_⟩
        rw [readEntries_bare hname hsign, hs]
      · refine ⟨{ s with names := max s.names i, latest := i }, by simp only; omega, rfl,
          fun rest => ?_⟩
        have hcount : s.count (KeyMeaning.of (Text.ofNat i)) =
            (.name, i, { s with latest := i }) := by
          rw [keyMeaning_ofNat]
          rfl
        have hnumber : Text.ofInt i = Text.ofNat i := rfl
        rw [hnumber, readEntries_assignment (isEntryKey_of_isKey (isKey_ofNat i)) hname hcount,
          Nat.max_eq_left (by omega)]
        rfl
    obtain ⟨s', hnames, hlatest, hfirst⟩ := hfirst
    obtain ⟨s'', hparts, hnames', -⟩ := readEntries_parts (l := l) (by omega) (fun k hk => hk)
      hl hlatest
      (linkParamsFrom (i + 1) (if needsNoKey l.name i count then count + 1 else count) links)
    have hrest := ih (s := s'') (fun l hl => hvalues l (List.mem_cons_of_mem _ hl)) (i + 1)
      (if needsNoKey l.name i count then count + 1 else count) (by omega)
    rw [linkParamsFrom, linkEntriesFrom, Link.params_eq, List.cons_append, hfirst, hparts, hrest,
      List.cons_append]

end Links

/-! ## 5. Chains -/

theorem isClosed_assignment {key value : Text} (hkey : IsLabel key) (h : IsClosed value) :
    IsClosed (assignment key value) :=
  (isSegment_label hkey).closed.append_cons (by decide) h

/-- The link that a name among the entries of a chain stands for. -/
def linkOf (entries : List Entry) (e : Entry) : Link where
  name := e.value
  group := valueAt? entries .group e.index
  page := valueAt? entries .page e.index
  pages := valueAt? entries .pages e.index
  place := valueAt? entries .place e.index

/-- The links that the entries of a chain stand for. -/
def entryLinks (entries : List Entry) : List Link :=
  (entries.filter (·.isName)).map (linkOf entries)

theorem links?_eq (t : Text) : links? t =
    if areLinks ((placedEntries t).map (·.toEntry)) then
      some (entryLinks ((placedEntries t).map (·.toEntry)))
    else none := rfl

section Links

variable {l : Link} {links : List Link} {role : Role} {i j : Nat}

theorem find?_linkKeys (hrole : role ≠ .name ∧ role ≠ .other) :
    ∃ key, linkKeys.find? (fun k => k.2 = role) = some (key, role) := by
  cases role with
  | name => exact absurd rfl hrole.1
  | other => exact absurd rfl hrole.2
  | group => exact ⟨_, rfl⟩
  | page => exact ⟨_, rfl⟩
  | pages => exact ⟨_, rfl⟩
  | place => exact ⟨_, rfl⟩

theorem valueAt?_append (es fs : List Entry) (role : Role) (j : Nat) :
    valueAt? (es ++ fs) role j = (valueAt? es role j).or (valueAt? fs role j) := by
  simp only [valueAt?, List.find?_append]
  cases es.find? fun e => e.role = role && e.index = j <;> rfl

/-- What one link says is found at its position, and nowhere else. -/
theorem valueAt?_entries (hrole : role ≠ .name ∧ role ≠ .other) (count : Nat) :
    valueAt? (l.nameEntry i count :: linkKeys.filterMap (l.entryOf i)) role j =
      if j = i then l.part role else none := by
  have hname : (decide ((l.nameEntry i count).role = role) &&
      decide ((l.nameEntry i count).index = j)) = false := by
    have hne : (l.nameEntry i count).role ≠ role := Ne.symm hrole.1
    rw [decide_eq_false hne, Bool.false_and]
  have hany : ∀ k : Text × Role, ((l.entryOf i k).any fun e => e.role = role && e.index = j) =
      (decide (k.2 = role) && ((l.part role).isSome && decide (i = j))) := by
    intro k
    by_cases hk : k.2 = role
    · cases hpart : l.part role <;> simp [Link.entryOf, hk, hpart]
    · cases hpart : l.part k.2 <;> simp [Link.entryOf, hk, hpart]
  obtain ⟨key, hkey⟩ := find?_linkKeys hrole
  have hnone : linkKeys.find? (fun _ => false) = none := rfl
  rw [valueAt?, List.find?_cons, hname, List.find?_filterMap]
  simp only [hany]
  by_cases hij : j = i
  · cases hpart : l.part role with
    | none => simp [hij, hnone]
    | some v => simp [hij, hkey, Link.entryOf, hpart]
  · simp [hij, Ne.symm hij, hnone]

/-- What the entries of links say at a position is what the link there says. -/
theorem valueAt?_linkEntriesFrom (hrole : role ≠ .name ∧ role ≠ .other) (i count j : Nat) :
    valueAt? (linkEntriesFrom i count links) role j =
      if j < i then none else (links[j - i]?).bind (·.part role) := by
  induction links generalizing i count with
  | nil => simp [linkEntriesFrom, valueAt?]
  | cons l links ih =>
    rw [linkEntriesFrom, valueAt?_append, valueAt?_entries hrole, ih]
    rcases Nat.lt_trichotomy j i with hj | rfl | hj
    · rw [if_neg (by omega), if_pos (by omega), if_pos hj, Option.none_or]
    · simp
    · have hsub : j - i = j - (i + 1) + 1 := by omega
      rw [if_neg (by omega), if_neg (by omega), if_neg (by omega), hsub, List.getElem?_cons_succ,
        Option.none_or]

/-- The names of links, read against entries that hold their parts, stand for the links. -/
theorem map_linkOf_linkEntriesFrom {entries : List Entry} (i count : Nat)
    (h : ∀ role, role ≠ .name ∧ role ≠ .other → ∀ n,
      valueAt? entries role (i + n) = (links[n]?).bind (·.part role)) :
    ((linkEntriesFrom i count links).filter (·.isName)).map (linkOf entries) = links := by
  induction links generalizing i count with
  | nil => rfl
  | cons l links ih =>
    have hparts : (linkKeys.filterMap (l.entryOf i)).filter (·.isName) = [] := by
      rw [List.filter_eq_nil_iff]
      intro e he
      obtain ⟨key, hkey, hpart⟩ := List.mem_filterMap.mp he
      obtain ⟨v, -, rfl⟩ := Option.map_eq_some_iff.mp hpart
      have hall : ∀ key ∈ linkKeys, key.2 ≠ .name := by decide
      simpa [Entry.isName] using hall key hkey
    have hname : linkOf entries (l.nameEntry i count) = l := by
      have hvalue : ∀ role, role ≠ .name ∧ role ≠ .other →
          valueAt? entries role i = l.part role := fun role hrole => h role hrole 0
      change Link.mk l.name (valueAt? entries .group i) (valueAt? entries .page i)
        (valueAt? entries .pages i) (valueAt? entries .place i) = l
      rw [hvalue _ (by simp), hvalue _ (by simp), hvalue _ (by simp), hvalue _ (by simp)]
      rfl
    have hrest := ih (i + 1) (if needsNoKey l.name i count then count + 1 else count)
      fun role hrole n => by
        rw [Nat.add_right_comm, Nat.add_assoc, h role hrole, List.getElem?_cons_succ]
    rw [linkEntriesFrom, List.cons_append, List.filter_cons_of_pos rfl, List.filter_append,
      hparts, List.nil_append, List.map_cons, hname, hrest]

/-- **The entries of links stand for the links.** -/
theorem entryLinks_linkEntriesFrom (i count : Nat) :
    entryLinks (linkEntriesFrom i count links) = links := by
  refine map_linkOf_linkEntriesFrom i count fun role hrole n => ?_
  rw [valueAt?_linkEntriesFrom hrole, if_neg (by omega), Nat.add_sub_cancel_left]

/-- What holds of all that links say, and of assignments of it, holds of their parameters. -/
theorem forall_mem_linkParamsFrom {P : Text → Prop}
    (hassign : ∀ key v, IsKey key → P v → P (assignment key v))
    (hvalues : ∀ l ∈ links, ∀ v ∈ l.values, P v) (i count : Nat) :
    ∀ t ∈ linkParamsFrom i count links, P t := by
  induction links generalizing i count with
  | nil => simp [linkParamsFrom]
  | cons l links ih =>
    have hl := hvalues l List.mem_cons_self
    intro t ht
    rw [linkParamsFrom, Link.params_eq, List.cons_append, List.mem_cons, List.mem_append] at ht
    rcases ht with rfl | ht | ht
    · unfold nameParam
      split
      · exact hl _ List.mem_cons_self
      · exact hassign _ _ (isKey_ofNat i) (hl _ List.mem_cons_self)
    · obtain ⟨k, hk, hparam⟩ := List.mem_filterMap.mp ht
      simp only [Link.paramOf, linkParam?, Option.map_eq_some_iff,
        Option.bind_eq_some_iff] at hparam
      obtain ⟨v, ⟨w, hpart, hw⟩, rfl⟩ := hparam
      obtain rfl : w = v := eq_of_nonempty? hw
      exact hassign _ _ (isKey_linkKey hk i)
        (hl _ (List.mem_cons_of_mem _ (List.mem_filterMap.mpr ⟨k, hk, hpart⟩)))
    · exact ih (fun l hl => hvalues l (List.mem_cons_of_mem _ hl)) _ _ t ht

/-- **Parameters that can be told apart are read back**, one entry after the other. -/
theorem placedEntries_join {params : List Text} (hne : params ≠ [])
    (hfirst : ∀ s ∈ params.head?, s ≠ []) (h : IsParted params) :
    (placedEntries (Text.join ['|'] params)).map (·.toEntry) = readEntries {} params := by
  have hsegments := segments_join hne h
  obtain ⟨first, rest, rfl⟩ := List.exists_cons_of_ne_nil hne
  have hnil : first ≠ [] := hfirst first rfl
  -- the text begins as its first segment does, and so with no bar
  have hhead : (Text.join ['|'] (first :: rest)).head? ≠ some '|' := by
    rw [head?_join hnil]
    exact (h.piece first List.mem_cons_self).head_ne
  have hempty : (Text.join ['|'] (first :: rest)).isEmpty = false := by
    rw [List.isEmpty_eq_false_iff, Ne, ← List.head?_eq_none_iff, head?_join hnil,
      List.head?_eq_none_iff]
    exact hnil
  unfold placedEntries
  split
  · rename_i r hr
    exact absurd (by rw [hr]; rfl) hhead
  · rw [hempty, if_neg (by simp), map_toEntry_entriesFrom, hsegments]

/-- **Links that have been written are read back.** -/
theorem placedEntries_linkParams (hne : links ≠ [])
    (hvalues : ∀ l ∈ links, ∀ v ∈ l.values, IsValue v ∧ IsClosed v) :
    (placedEntries (Text.join ['|'] (linkParamsFrom 1 0 links))).map (·.toEntry) =
      linkEntriesFrom 1 0 links := by
  have hclosed := forall_mem_linkParamsFrom
    (fun _ _ hkey => isClosed_assignment (isLabel_of_isKey hkey))
    (fun l hl v hv => (hvalues l hl v hv).2) 1 0
  obtain ⟨l, rest, rfl⟩ := List.exists_cons_of_ne_nil hne
  have hfirst : ∀ s ∈ (linkParamsFrom 1 0 (l :: rest)).head?, s ≠ [] := by
    rintro s hs
    obtain rfl : nameParam l.name 1 0 = s := Option.some.inj hs
    unfold nameParam
    split
    · exact (hvalues l List.mem_cons_self _ List.mem_cons_self).1.nonempty
    · simp [assignment]
  rw [placedEntries_join (by simp [linkParamsFrom, Link.params]) hfirst
    (isParted_of_closed hclosed)]
  exact readEntries_linkParamsFrom (fun l hl v hv => (hvalues l hl v hv).1) 1 0 rfl

end Links

end CiteMarkup
