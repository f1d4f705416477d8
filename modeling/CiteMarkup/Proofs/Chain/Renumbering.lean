import CiteMarkup.Proofs.Chain.Collapse
import CiteMarkup.Proofs.Chain.Written
/-!
# Chains that are counted anew

Names that stay in a chain while others are taken out of it are counted from 1 again, and the
parameters of each name go with it.  What is written then says what has been said before, at the
new positions, if and only if the keys of what belongs to the first name still say it without an
index (`readEntries_counted`, `Entry.MovesTo`): a blank in front of the index is lost with it, and
what is left may read as another key.  Keys with an index keep what they say
(`Entry.IsRead.movesTo`).
-/

namespace CiteMarkup

/-! ## 1. Entries at another position -/

/-- What an entry says, however its key is written. -/
def Entry.said (e : Entry) : Entry := { e with key := none }

/-- What an entry says at another position. -/
def Entry.saidAt (j : Nat) (e : Entry) : Entry := { e with key := none, index := j }

/-- A name of a chain, and the entries that belong to it. -/
abbrev Holding := Entry × List Entry

/-- The entries of a holding, the name in front. -/
def Holding.entries (x : Holding) : List Entry := x.1 :: x.2

/-- What holdings say if their names are counted from `j` on. -/
def countedFrom : (j : Nat) → List Holding → List Entry
  | _, [] => []
  | j, x :: r => x.entries.map (Entry.saidAt j) ++ countedFrom (j + 1) r

/-- A key that says the same with another index. -/
structure IsMovableKey (k : Text) : Prop where
  label : IsLabel k
  untagged : '<' ∉ k
  base : (unindexed k).Trimmed

instance (k : Text) : Decidable (IsMovableKey k) :=
  decidable_of_iff (k.all (· ∉ ['|', '=', '{', '[', '}', ']']) = true ∧ '<' ∉ k ∧
    (unindexed k).Trimmed)
    ⟨fun h => ⟨fun c hc => of_decide_eq_true (List.all_eq_true.mp h.1 c hc), h.2.1, h.2.2⟩,
      fun h => ⟨List.all_eq_true.mpr fun c hc => decide_eq_true (h.label c hc), h.untagged, h.base⟩⟩

/-- An entry that can be written at another position. -/
structure Entry.CanMove (e : Entry) : Prop where
  value : StandsInChain e.value
  key : ∀ k ∈ e.key, IsMovableKey k

instance (e : Entry) : Decidable e.CanMove :=
  decidable_of_iff (StandsInChain e.value ∧ ∀ k ∈ e.key, IsMovableKey k)
    ⟨fun h => ⟨h.1, h.2⟩, fun h => ⟨h.value, h.key⟩⟩

/-- A name, as it is read, with entries that belong to it. -/
structure Holding.IsRead (x : Holding) : Prop where
  name : x.1.isName = true
  own : ∀ e ∈ x.2, e.isName = false ∧ e.index = x.1.index
  read : ∀ e ∈ x.entries, e.IsRead

/-- A name with entries that belong to it. -/
structure Holding.IsOwned (x : Holding) : Prop where
  name : x.1.isName = true
  own : ∀ e ∈ x.2, e.isName = false ∧ e.index = x.1.index

theorem Holding.IsRead.isOwned {x : Holding} (h : x.IsRead) : x.IsOwned := ⟨h.name, h.own⟩

/-- What the key of an entry says at position `j`. -/
def Entry.meaningAt (j : Nat) (e : Entry) (k : Text) : KeyMeaning :=
  KeyMeaning.of (Text.trim (reindexedKey k e.role j))

/-- At position `j` the key of an entry says what it has said, and that it belongs there. -/
def Entry.MovesTo (j : Nat) (e : Entry) : Prop :=
  ∀ k ∈ e.key, (e.meaningAt j k).role = e.role ∧ ∀ i ∈ (e.meaningAt j k).index, max i 1 = j

section Keys

variable {e : Entry} {j : Nat} {k : Text}

/-- A key that stays as it is between blanks says what it has said. -/
theorem Entry.IsRead.meaningAt (hread : e.IsRead) (hk : k ∈ e.key)
    (hbase : 1 < j ∨ (unindexed k).Trimmed) : (e.meaningAt j k).role = e.role ∧
      ((e.meaningAt j k).index = some j ∨
        (e.meaningAt j k).index = none ∧ (j ≤ 1 ∨ e.role = .name ∨ e.role = .other)) := by
  obtain ⟨hne, htrimmed, hmeaning⟩ := hread.keyed k hk
  rw [Entry.meaningAt, (trimmed_reindexedKey e.role htrimmed hne hbase).trim_eq]
  exact keyMeaning_reindexedKey htrimmed hmeaning

/-- **Keys with an index move**, and so do keys with no blank in front of their index. -/
theorem Entry.IsRead.movesTo (hread : e.IsRead) (hj : 1 ≤ j)
    (hbase : ∀ k ∈ e.key, 1 < j ∨ (unindexed k).Trimmed) : e.MovesTo j := by
  intro k hk
  obtain ⟨hrole, hindex⟩ := hread.meaningAt hk (hbase k hk)
  refine ⟨hrole, fun i hi => ?_⟩
  rcases hindex with hindex | ⟨hindex, -⟩
  · obtain rfl : j = i := by simpa [hindex] using hi
    exact Nat.max_eq_left hj
  · rw [hindex] at hi
    cases hi

/-- Without an index, a key that is not at the first position is not known. -/
theorem Entry.IsRead.index_meaningAt (hread : e.IsRead) (hk : k ∈ e.key) (hname : e.role ≠ .name)
    (hindex : (e.meaningAt j k).index = none) : j ≤ 1 ∨ (e.meaningAt j k).role = .other := by
  by_cases hj : 1 < j
  · obtain ⟨hrole, hat⟩ := hread.meaningAt hk (.inl hj)
    rcases hat with hat | ⟨-, hat⟩
    · rw [hindex] at hat
      cases hat
    · exact hat.imp_right fun h => hrole.trans (h.resolve_left hname)
  · exact .inl (by omega)

/-- What belongs to the first name moves if its key says the same without an index. -/
theorem Entry.IsRead.movesTo_one (hread : e.IsRead) (hname : e.role ≠ .name) :
    e.MovesTo 1 ↔ ∀ k ∈ e.key, (KeyMeaning.of (Text.trim (unindexed k))).role = e.role ∧
      ∀ i ∈ (KeyMeaning.of (Text.trim (unindexed k))).index, i ≤ 1 := by
  refine forall₂_congr fun k hk => ?_
  obtain ⟨-, htrimmed, hmeaning⟩ := hread.keyed k hk
  have hsame : e.meaningAt 1 k = KeyMeaning.of (Text.trim (unindexed k)) := by
    rw [Entry.meaningAt, (reindexedKey_one htrimmed (hmeaning ▸ hname)).1]
  rw [hsame]
  refine and_congr_right' (forall₂_congr fun i _ => ?_)
  omega

/-- The key of an entry at another position has its sign where it had it, and opens and closes
what it did. -/
theorem Entry.IsRead.reindexed (hread : e.IsRead) (hk : k ∈ e.key) (j : Nat) :
    depthAfter (reindexedKey k e.role j) = depthAfter k ∧
      nestingAfter (assignment (reindexedKey k e.role j) e.value) =
        nestingAfter (assignment k e.value) := by
  obtain ⟨hsplit, -, hdigits⟩ := unindexed_append k (hread.keyed k hk).2.1
  obtain ⟨digits, hnew, heq⟩ := exists_reindexedKey k e.role j
  have hdepth := depthAfter_append (isLabel_digits hdigits) (unindexed k)
  have hnesting := nestingAfter_indexed hdigits (unindexed k) e.value
  rw [hsplit] at hdepth hnesting
  rw [heq, depthAfter_append (isLabel_digits hnew), nestingAfter_indexed hnew]
  exact ⟨hdepth.symm, hnesting.symm⟩

/-- Nothing that would be read stands in the key of an entry that can be written at another
position. -/
theorem Entry.CanMove.reindexed (hmove : e.CanMove) (hread : e.IsRead) (hk : k ∈ e.key) (j : Nat) :
    IsLabel (reindexedKey k e.role j) ∧ '<' ∉ reindexedKey k e.role j := by
  obtain ⟨-, htrimmed, -⟩ := hread.keyed k hk
  have hkey := hmove.key k hk
  constructor
  · intro c hc
    rcases mem_reindexedKey htrimmed hc with hc | hc
    · exact hkey.label c hc
    · exact isLabel_digits (by simp [hc]) c (List.mem_singleton_self c)
  · intro hc
    rcases mem_reindexedKey htrimmed hc with hc | hc
    · exact hkey.untagged hc
    · cases hc

theorem Entry.CanMove.hasSign (hmove : e.CanMove) : e.HasSign :=
  fun k hk => depthAfter_label (hmove.key k hk).label

end Keys

/-! ## 2. Reading what has been written anew -/

section Written

variable {position : Entry → Nat} {s : Tally} {count j : Nat} {e n : Entry} {rest es : List Entry}

/-- The parameters that entries are written as at their positions. -/
def movedParams (position : Entry → Nat) (count : Nat) (entries : List Entry) : List Text :=
  chainParamsFrom position (fun e key => reindexedKey key e.role (position e)) count entries

theorem movedParams_keyed {k : Text} (hk : e.key = some k) :
    movedParams position count (e :: rest) =
      assignment (reindexedKey k e.role (position e)) e.value ::
        movedParams position count rest := by
  simp only [movedParams, chainParamsFrom, hk]

theorem movedParams_name (hk : e.key = none) (hname : e.isName = true) :
    movedParams position count (e :: rest) = nameParam e.value (position e) count ::
      movedParams position (if needsNoKey e.value (position e) count then count + 1 else count)
        rest := by
  simp only [movedParams, chainParamsFrom, hk, hname, if_true]

variable (count rest) in
/-- An entry with a key is read as its key says at its position. -/
theorem readEntries_moved {s' : Tally} {k : Text} {role : Role} {index : Nat} (hread : e.IsRead)
    (hsign : e.HasSign) (hk : e.key = some k) (hposition : position e = j)
    (hcount : s.count (e.meaningAt j k) = (role, index, s')) :
    readEntries s (movedParams position count (e :: rest)) =
      ⟨some (Text.trim (reindexedKey k e.role j)), e.value, role, max index 1⟩ ::
        readEntries (s'.keep role index) (movedParams position count rest) := by
  obtain ⟨hne, htrimmed, -⟩ := hread.keyed k hk
  obtain ⟨hhead, hnil⟩ := head_reindexedKey e.role j htrimmed hne
  have hdepth : depthAfter (reindexedKey k e.role j) = some 0 :=
    (hread.reindexed hk j).1.trans (hsign k hk)
  rw [movedParams_keyed hk, hposition, readEntries_keyed hhead hnil hdepth hread.value hcount]

variable (count rest) in
/-- A name at the next position is read there. -/
theorem readEntries_name (hname : n.isName = true) (hread : n.IsRead) (hsign : n.HasSign)
    (hposition : position n = j) (hs : s.names + 1 = j) :
    ∃ s' count', s'.names = j ∧ s'.latest = j ∧
      (readEntries s (movedParams position count (n :: rest))).map Entry.said =
        n.saidAt j :: (readEntries s' (movedParams position count' rest)).map Entry.said := by
  have hrole : n.role = .name := of_decide_eq_true hname
  have hone : max j 1 = j := by omega
  have hsaid : ∀ key, Entry.said ⟨key, n.value, .name, j⟩ = n.saidAt j := fun key => by
    rw [← hrole]
    rfl
  cases hk : n.key with
  | none =>
    rw [movedParams_name hk hname, hposition]
    unfold nameParam
    split
    · rename_i hno
      have hsign : '=' ∉ n.value := by simpa using (Bool.and_eq_true_iff.mp hno).1
      refine ⟨{ s with names := s.names + 1, latest := s.names + 1 }, count + 1, hs, hs, ?_⟩
      rw [readEntries_bare hread.value hsign, hs, List.map_cons, hsaid]
    · have hcount : s.count (KeyMeaning.of (Text.ofNat j)) =
          (.name, j, { s with latest := j }) := by
        rw [keyMeaning_ofNat]
        rfl
      have hnumber : Text.ofInt j = Text.ofNat j := rfl
      have hmax : max s.names j = j := by omega
      refine ⟨Tally.keep { s with latest := j } .name j, count, hmax, rfl, ?_⟩
      rw [hnumber, readEntries_assignment (isEntryKey_of_isKey (isKey_ofNat j)) hread.value hcount,
        hone, List.map_cons, hsaid]
  | some k =>
    obtain ⟨-, htrimmed, hmeaning⟩ := hread.keyed k hk
    have hknown : (KeyMeaning.of k).role ≠ .other := by simp [← hmeaning, hrole]
    obtain ⟨hrole', hindex⟩ :=
      hread.meaningAt (j := j) hk (.inr (trimmed_unindexed htrimmed hknown))
    obtain ⟨s', hcount, hnames, hlatest⟩ :=
      Tally.count_name (hrole'.trans hrole) (hindex.imp_right And.left) hs
    refine ⟨_, count, hnames, hlatest, ?_⟩
    rw [readEntries_moved count rest hread hsign hk hposition hcount, hone, List.map_cons, hsaid]

variable (count rest) in
/-- **What belongs to the latest name is read as its own if and only if its key moves there.** -/
theorem readEntries_part (hj : 1 ≤ j) (hname : e.isName = false) (hread : e.IsRead)
    (hsign : e.HasSign) (hposition : position e = j) (hnames : s.names = j)
    (hlatest : s.latest = j) :
    ∃ x s', readEntries s (movedParams position count (e :: rest)) =
        x :: readEntries s' (movedParams position count rest) ∧
      (x.said = e.saidAt j ↔ e.MovesTo j) ∧ (e.MovesTo j → s'.names = j ∧ s'.latest = j) := by
  have hrole : e.role ≠ .name := of_decide_eq_false hname
  obtain ⟨k, hk⟩ := Option.ne_none_iff_exists'.mp fun hnone => hrole (hread.keyless hnone)
  have hmoves : e.MovesTo j ↔ (e.meaningAt j k).role = e.role ∧
      ∀ i ∈ (e.meaningAt j k).index, max i 1 = j := by
    rw [Entry.MovesTo, hk]
    simp
  by_cases hm : (e.meaningAt j k).role = .name
  · -- what is read is a name, so it is not what has been said
    have hrole' : (s.count (e.meaningAt j k)).1 = .name := (s.role_count _).trans hm
    have hno : ¬ e.MovesTo j := fun h => hrole ((hmoves.mp h).1.symm.trans hm)
    refine ⟨_, _, readEntries_moved count rest hread hsign hk hposition rfl, ?_,
      fun h => absurd h hno⟩
    refine iff_of_false (fun heq => ?_) hno
    exact hrole ((congrArg Entry.role heq).symm.trans hrole')
  · obtain ⟨s', hcount, hnames', hlatest'⟩ := Tally.count_part hm
      (hread.index_meaningAt hk hrole) hj hlatest fun _ => hnames
    have hkeep : s'.keep (e.meaningAt j k).role ((e.meaningAt j k).index.getD j) = s' := if_neg hm
    have hfirst := readEntries_moved count rest hread hsign hk hposition hcount
    rw [← Entry.meaningAt, hkeep] at hfirst
    refine ⟨_, s', hfirst, ?_, fun _ => ⟨hnames'.trans hnames, hlatest'.trans hlatest⟩⟩
    have hindex : max ((e.meaningAt j k).index.getD j) 1 = j ↔
        ∀ i ∈ (e.meaningAt j k).index, max i 1 = j := by
      cases (e.meaningAt j k).index with
      | none => simpa using hj
      | some i => simp
    rw [hmoves, ← hindex]
    simp [Entry.said, Entry.saidAt]

variable (count rest) in
/-- What belongs to the latest name is read as its own, entry by entry. -/
theorem readEntries_own (hj : 1 ≤ j) (hown : ∀ e ∈ es, e.isName = false)
    (hread : ∀ e ∈ es, e.IsRead) (hsign : ∀ e ∈ es, e.HasSign)
    (hposition : ∀ e ∈ es, position e = j) (hnames : s.names = j) (hlatest : s.latest = j) :
    ((∀ e ∈ es, e.MovesTo j) → ∃ s', s'.names = j ∧
      (readEntries s (movedParams position count (es ++ rest))).map Entry.said =
        es.map (Entry.saidAt j) ++
          (readEntries s' (movedParams position count rest)).map Entry.said) ∧
    (es.map (Entry.saidAt j) <+:
        (readEntries s (movedParams position count (es ++ rest))).map Entry.said →
      ∀ e ∈ es, e.MovesTo j) := by
  induction es generalizing s with
  | nil => exact ⟨fun _ => ⟨s, hnames, rfl⟩, by simp⟩
  | cons e es ih =>
    obtain ⟨x, s', hfirst, hiff, hstate⟩ := readEntries_part count (es ++ rest) hj
      (hown e List.mem_cons_self) (hread e List.mem_cons_self) (hsign e List.mem_cons_self)
      (hposition e List.mem_cons_self) hnames hlatest
    have hrest := fun (h : s'.names = j ∧ s'.latest = j) =>
      ih (fun x hx => hown x (List.mem_cons_of_mem _ hx))
        (fun x hx => hread x (List.mem_cons_of_mem _ hx))
        (fun x hx => hsign x (List.mem_cons_of_mem _ hx))
        (fun x hx => hposition x (List.mem_cons_of_mem _ hx)) h.1 h.2
    rw [List.cons_append, hfirst, List.map_cons, List.map_cons]
    constructor
    · intro hmoves
      have he := hmoves e List.mem_cons_self
      obtain ⟨s'', hend, heq⟩ := (hrest (hstate he)).1 fun x hx =>
        hmoves x (List.mem_cons_of_mem _ hx)
      exact ⟨s'', hend, by rw [hiff.mpr he, heq, List.cons_append]⟩
    · intro hprefix
      obtain ⟨hsaid, hprefix⟩ := List.cons_prefix_cons.mp hprefix
      have he := hiff.mp hsaid.symm
      exact List.forall_mem_cons.mpr ⟨he, (hrest (hstate he)).2 hprefix⟩

/-- **Holdings that are written anew are read at their new positions if and only if what belongs to
the first name moves there.** -/
theorem readEntries_counted {xs : List Holding} (hread : ∀ x ∈ xs, x.IsRead)
    (hsign : ∀ x ∈ xs, ∀ e ∈ x.entries, e.HasSign)
    (hposition : ∀ k x, xs[k]? = some x → ∀ e ∈ x.entries, position e = j + k)
    (hs : s.names + 1 = j) :
    (readEntries s (movedParams position count (xs.flatMap Holding.entries))).map Entry.said =
      countedFrom j xs ↔ ∀ x ∈ xs.head?, ∀ e ∈ x.2, e.MovesTo j := by
  induction xs generalizing s count j with
  | nil => exact iff_of_true rfl (by simp)
  | cons x xs ih =>
    have hx := hread x List.mem_cons_self
    have hxsign := hsign x List.mem_cons_self
    have hplace : ∀ e ∈ x.entries, position e = j := fun e he => hposition 0 x rfl e he
    obtain ⟨s', count', hnames, hlatest, hfirst⟩ := readEntries_name count
      (x.2 ++ xs.flatMap Holding.entries) hx.name
      (hx.read x.1 List.mem_cons_self) (hxsign x.1 List.mem_cons_self)
      (hplace x.1 List.mem_cons_self) hs
    obtain ⟨hown, hprefix⟩ := readEntries_own count'
      (xs.flatMap Holding.entries) (by omega)
      (fun e he => (hx.own e he).1)
      (fun e he => hx.read e (List.mem_cons_of_mem _ he))
      (fun e he => hxsign e (List.mem_cons_of_mem _ he))
      (fun e he => hplace e (List.mem_cons_of_mem _ he)) hnames hlatest
    have hcounted : countedFrom j (x :: xs) =
        x.1.saidAt j :: (x.2.map (Entry.saidAt j) ++ countedFrom (j + 1) xs) := rfl
    rw [List.flatMap_cons, Holding.entries, List.cons_append, hfirst, hcounted]
    constructor
    · intro heq y hy
      obtain rfl : x = y := Option.some.inj hy
      exact hprefix ⟨_, (List.cons.inj heq).2.symm⟩
    · intro hmoves
      obtain ⟨s'', hnames', heq⟩ := hown (hmoves x rfl)
      -- behind the first name every key has an index
      have hrest : (readEntries s'' (movedParams position count'
          (xs.flatMap Holding.entries))).map Entry.said = countedFrom (j + 1) xs := by
        refine (ih (fun y hy => hread y (List.mem_cons_of_mem _ hy))
          (fun y hy => hsign y (List.mem_cons_of_mem _ hy))
          (fun k y hy e he => by rw [hposition (k + 1) y hy e he]; omega) (by omega)).mpr ?_
        intro y hy e he
        have hmem : y ∈ x :: xs := List.mem_cons_of_mem _ (List.mem_of_mem_head? hy)
        exact ((hread y hmem).read e (List.mem_cons_of_mem _ he)).movesTo (by omega)
          fun _ _ => .inl (by omega)
      rw [heq, hrest]

/-- What is written stands in a chain. -/
theorem standsInChain_movedParams (hread : ∀ e ∈ es, e.IsRead) (hmove : ∀ e ∈ es, e.CanMove) :
    ∀ p ∈ movedParams position count es, StandsInChain p := by
  induction es generalizing count with
  | nil => simp [movedParams, chainParamsFrom]
  | cons e es ih =>
    have he := hread e List.mem_cons_self
    have hemove := hmove e List.mem_cons_self
    have hrest : ∀ n, ∀ p ∈ movedParams position n es, StandsInChain p := fun _ =>
      ih (fun x hx => hread x (List.mem_cons_of_mem _ hx))
        (fun x hx => hmove x (List.mem_cons_of_mem _ hx))
    intro p hp
    cases hk : e.key with
    | none =>
      have hname : e.isName = true := decide_eq_true (he.keyless hk)
      rw [movedParams_name hk hname] at hp
      rcases List.mem_cons.mp hp with rfl | hp
      · unfold nameParam
        split
        · exact hemove.value
        · exact hemove.value.assignment_of_isKey (isKey_ofNat _)
      · exact hrest _ p hp
    | some k =>
      obtain ⟨hlabel, htag⟩ := hemove.reindexed he hk (position e)
      rw [movedParams_keyed hk] at hp
      rcases List.mem_cons.mp hp with rfl | hp
      · exact hemove.value.assignment hlabel htag
      · exact hrest _ p hp

end Written

/-! ## 3. Positions -/

section Positions

variable {xs : List Holding} {i : Nat}

theorem filter_isName_holdings (howned : ∀ x ∈ xs, x.IsOwned) :
    (xs.flatMap Holding.entries).filter Entry.isName = xs.map (·.1) := by
  induction xs with
  | nil => rfl
  | cons x xs ih =>
    have hx := howned x List.mem_cons_self
    have hown : x.2.filter Entry.isName = [] := by
      rw [List.filter_eq_nil_iff]
      exact fun e he => by simp [(hx.own e he).1]
    rw [List.flatMap_cons, List.filter_append, ih fun y hy => howned y (List.mem_cons_of_mem _ hy),
      Holding.entries, List.filter_cons_of_pos hx.name, hown]
    rfl

/-- Positions that differ are found as they come. -/
theorem foldl_positions {names : List Entry} {found : List Nat}
    (h : (found ++ names.map (·.index)).Nodup) :
    names.foldl (fun found e => if found.contains e.index then found else found ++ [e.index])
      found = found ++ names.map (·.index) := by
  induction names generalizing found with
  | nil => simp
  | cons n names ih =>
    have hnot : n.index ∉ found := fun hmem =>
      (List.nodup_append.mp h).2.2 _ hmem _ List.mem_cons_self rfl
    rw [List.map_cons, List.append_cons] at h
    rw [List.foldl_cons, if_neg (by simpa using hnot), ih h, List.map_cons, List.append_assoc]
    rfl

theorem newPosition_of_getElem? {positions : List Nat} (h : positions.Nodup) {k : Nat}
    (hk : positions[k]? = some i) : newPosition positions i = k + 1 := by
  obtain ⟨hlt, rfl⟩ := List.getElem?_eq_some_iff.mp hk
  have hidx : positions.idxOf? positions[k] = some k := by
    rw [List.idxOf?_eq_some_iff]
    refine ⟨hlt, rfl, fun j hj heq => ?_⟩
    have := (h.getElem_inj_iff).mp heq
    omega
  rw [newPosition, hidx]

/-- **Holdings are written at the positions of their names**, counted from 1. -/
theorem writeRenumbered?_owned (template : Text) (hne : xs ≠ []) (howned : ∀ x ∈ xs, x.IsOwned)
    (hindex : (xs.map (·.1.index)).Nodup) :
    ∃ position : Entry → Nat,
      writeRenumbered? template (xs.flatMap Holding.entries) =
        some (writeTemplate template (movedParams position 0 (xs.flatMap Holding.entries))) ∧
      ∀ k x, xs[k]? = some x → ∀ e ∈ x.entries, position e = 1 + k := by
  have hnames := filter_isName_holdings howned
  have hany : (xs.flatMap Holding.entries).any Entry.isName = true := by
    obtain ⟨x, rest, rfl⟩ := List.exists_cons_of_ne_nil hne
    exact List.any_eq_true.mpr ⟨x.1, by simp [Holding.entries], (howned x List.mem_cons_self).name⟩
  have hpositions : namePositions (xs.flatMap Holding.entries) = xs.map (·.1.index) := by
    have hfound := @foldl_positions (xs.map (·.1)) []
      (by rwa [List.nil_append, List.map_map])
    rw [List.nil_append, List.map_map] at hfound
    rw [namePositions, hnames, hfound]
    rfl
  refine ⟨fun e => newPosition (xs.map (·.1.index)) e.index, ?_, ?_⟩
  · simp only [writeRenumbered?, hany, if_true, hpositions]
    rfl
  · intro k x hx e he
    have hown : e.index = x.1.index := by
      rcases List.mem_cons.mp he with rfl | he
      · rfl
      · exact ((howned x (List.mem_of_getElem? hx)).own e he).2
    have hk : (xs.map (·.1.index))[k]? = some x.1.index := by rw [List.getElem?_map, hx]; rfl
    simp only [hown]
    rw [newPosition_of_getElem? hindex hk, Nat.add_comm]

/-- Holdings that are as they are read are written at the positions of their names. -/
theorem writeRenumbered?_eq (template : Text) (hne : xs ≠ []) (hread : ∀ x ∈ xs, x.IsRead)
    (hindex : (xs.map (·.1.index)).Nodup) :
    ∃ position : Entry → Nat,
      writeRenumbered? template (xs.flatMap Holding.entries) =
        some (writeTemplate template (movedParams position 0 (xs.flatMap Holding.entries))) ∧
      ∀ k x, xs[k]? = some x → ∀ e ∈ x.entries, position e = 1 + k :=
  writeRenumbered?_owned template hne (fun x hx => (hread x hx).isOwned) hindex

theorem length_countedFrom (j : Nat) (xs : List Holding) :
    (countedFrom j xs).length = (xs.flatMap Holding.entries).length := by
  induction xs generalizing j with
  | nil => rfl
  | cons x xs ih =>
    rw [countedFrom, List.flatMap_cons, List.length_append, List.length_append, List.length_map, ih]

/-- **What has been written anew is read as it has been counted if and only if its entries can be
told apart and what belongs to the first name moves there.** -/
theorem said_movedParams {position : Entry → Nat} (hne : xs ≠ []) (hread : ∀ x ∈ xs, x.IsRead)
    (hsign : ∀ x ∈ xs, ∀ e ∈ x.entries, e.HasSign)
    (hpiece : ∀ x ∈ xs, ∀ e ∈ x.entries, IsPiece e.written)
    (hposition : ∀ k x, xs[k]? = some x → ∀ e ∈ x.entries, position e = 1 + k) :
    ((placedEntries (Text.join ['|'] (movedParams position 0
        (xs.flatMap Holding.entries)))).map (·.toEntry)).map Entry.said = countedFrom 1 xs ↔
      IsParted ((xs.flatMap Holding.entries).map Entry.written) ∧
        ∀ x ∈ xs.head?, ∀ e ∈ x.2, e.MovesTo 1 := by
  have hnil : xs.flatMap Holding.entries ≠ [] := by
    obtain ⟨x, rest, rfl⟩ := List.exists_cons_of_ne_nil hne
    simp [Holding.entries]
  have hall : ∀ e ∈ xs.flatMap Holding.entries, e.IsRead := by
    intro e he
    obtain ⟨x, hx, he⟩ := List.mem_flatMap.mp he
    exact (hread x hx).read e he
  have hrename : ∀ e ∈ xs.flatMap Holding.entries, ∀ k ∈ e.key,
      nestingAfter (assignment (reindexedKey k e.role (position e)) e.value) =
        nestingAfter (assignment k e.value) :=
    fun e he k hk => ((hall e he).reindexed hk (position e)).2
  have hcounted : IsParted ((xs.flatMap Holding.entries).map Entry.written) →
      (((placedEntries (Text.join ['|'] (movedParams position 0
          (xs.flatMap Holding.entries)))).map (·.toEntry)).map Entry.said = countedFrom 1 xs ↔
        ∀ x ∈ xs.head?, ∀ e ∈ x.2, e.MovesTo 1) := by
    intro hparted
    rw [movedParams, placedEntries_chain hnil hall hparted hrename]
    exact readEntries_counted hread hsign hposition rfl
  constructor
  · intro heq
    -- no entry has been lost, so the parameters are the segments
    have hlength := congrArg List.length heq
    rw [length_countedFrom, List.length_map, List.length_map] at hlength
    have hparted := isParted_of_chain hall (fun e he => by
      obtain ⟨x, hx, he⟩ := List.mem_flatMap.mp he
      exact hpiece x hx e he) hrename hlength.ge
    exact ⟨hparted, (hcounted hparted).mp heq⟩
  · rintro ⟨hparted, hmoves⟩
    exact (hcounted hparted).mpr hmoves

/-- **Holdings that are written anew say what they have said, counted from 1.** -/
theorem writeRenumbered?_holdings (template : Text) (hne : xs ≠ []) (hread : ∀ x ∈ xs, x.IsRead)
    (hmove : ∀ x ∈ xs, ∀ e ∈ x.entries, e.CanMove) (hindex : (xs.map (·.1.index)).Nodup) :
    ∃ params, writeRenumbered? template (xs.flatMap Holding.entries) =
        some (writeTemplate template params) ∧ (∀ p ∈ params, StandsInChain p) ∧
      ((placedEntries (Text.join ['|'] params)).map (·.toEntry)).map Entry.said =
        countedFrom 1 xs := by
  obtain ⟨position, hwritten, hposition⟩ := writeRenumbered?_eq template hne hread hindex
  have hall : ∀ e ∈ xs.flatMap Holding.entries, e.IsRead ∧ e.CanMove := by
    intro e he
    obtain ⟨x, hx, he⟩ := List.mem_flatMap.mp he
    exact ⟨(hread x hx).read e he, hmove x hx e he⟩
  have hclosed : ∀ w ∈ (xs.flatMap Holding.entries).map Entry.written, IsClosed w := by
    refine List.forall_mem_map.mpr fun e he => ?_
    have hvalue := (hall e he).2.value.closed
    unfold Entry.written
    split
    · rename_i k hk
      exact isClosed_assignment ((hall e he).2.key k hk).label hvalue
    · exact hvalue
  refine ⟨_, hwritten, standsInChain_movedParams (fun e he => (hall e he).1)
    (fun e he => (hall e he).2), ?_⟩
  have hparted := isParted_of_closed hclosed
  refine (said_movedParams hne hread (fun x hx e he => (hmove x hx e he).hasSign)
    (fun x hx e he => hparted.piece _ (List.mem_map_of_mem (List.mem_flatMap.mpr ⟨x, hx, he⟩)))
    hposition).mpr ⟨hparted, fun x hx e he => ?_⟩
  have hx := List.mem_of_mem_head? hx
  have he := List.mem_cons_of_mem x.1 he
  exact ((hread x hx).read e he).movesTo le_rfl fun k hk => .inr ((hmove x hx e he).key k hk).base

end Positions

end CiteMarkup
