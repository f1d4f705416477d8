import CiteMarkup.Proofs.Chain.Renaming
/-!
# Positions of names

Names of a chain are counted from left to right.  A name without an index takes the position behind
the highest one that has been counted, and what is counted never becomes less
(`readSegment_name`, `names_lt_of_unindexed`).  So it comes behind every name before it, with one
exception: a name with the index zero is not counted, but what is kept of it is the index one, and
the first name without an index gets that as well (`names_at_free_positions`,
`position_shared_with_zero`).
-/

namespace CiteMarkup

/-! ## 1. Keys without an index -/

section Keys

variable {key : Text}

/-- Nothing stands behind one of the words of a name, and no other one is read instead. -/
theorem indexAfter?_nameWords_iff :
    indexAfter? nameWords key = some [] ↔ ∃ w ∈ nameWords, asciiKeyword? w key = some [] := by
  constructor
  · intro h
    obtain ⟨w, hw, hsome⟩ := List.exists_of_findSome?_eq_some h
    obtain ⟨digits, hdigits, hall⟩ := Option.bind_eq_some_iff.mp hsome
    split at hall
    · exact ⟨w, hw, by rw [hdigits, Option.some.inj hall]⟩
    · cases hall
  · rintro ⟨w, hw, hkey⟩
    rcases (by simpa [nameWords] using hw : w = "name".toList ∨ w = "n".toList) with rfl | rfl
    · rw [indexAfter?, nameWords, List.findSome?_cons, hkey]
      rfl
    · -- the longer word has more letters than the key
      have hnone : asciiKeyword? "name".toList key = none := by
        cases hlong : asciiKeyword? "name".toList key with
        | none => rfl
        | some rest =>
          have hshort := length_of_asciiKeyword? hkey
          have := length_of_asciiKeyword? hlong
          simp at hshort this
          omega
      rw [indexAfter?, nameWords, List.findSome?_cons, hnone, Option.bind_none, List.findSome?_cons,
        hkey]
      rfl

theorem indexOf_eq_none_iff {digits : Text} : indexOf digits = none ↔ digits = [] := by
  cases digits <;> simp [indexOf, Text.nonempty?]

/-- **A key says a name without an index** if it is empty or one of the words for a name. -/
theorem keyMeaning_eq_name_none_iff :
    KeyMeaning.of key = .name none ↔ key = [] ∨ ∃ w ∈ nameWords, asciiKeyword? w key = some [] := by
  have hword : (∃ w ∈ nameWords, asciiKeyword? w key = some []) → key.all isAsciiDigit = false := by
    rintro ⟨w, hw, hkey⟩
    rw [Bool.eq_false_iff]
    intro hall
    have hne : ∀ w ∈ nameWords, w ≠ [] := by decide
    obtain ⟨c, ws, rfl⟩ := List.exists_cons_of_ne_nil (hne w hw)
    rw [asciiKeyword?_digits (areWords_nameWords _ hw c List.mem_cons_self) ws hall] at hkey
    cases hkey
  rw [← indexAfter?_nameWords_iff] at hword ⊢
  unfold KeyMeaning.of
  split
  · rename_i hall
    rw [KeyMeaning.name.injEq, indexOf_eq_none_iff]
    constructor
    · exact .inl
    · rintro (hnil | hsome)
      · exact hnil
      · cases hall.symm.trans (hword hsome)
  · rename_i hall
    have hne : key ≠ [] := by
      rintro rfl
      exact hall rfl
    split
    · rename_i digits hdigits
      rw [KeyMeaning.name.injEq, indexOf_eq_none_iff, hdigits, Option.some_inj]
      exact ⟨.inr, fun h => h.resolve_left hne⟩
    · rename_i hnone
      rw [hnone]
      split <;> simp [hne]

end Keys

/-- The name is written without an index: by itself, or with one of the words for a name alone. -/
def Entry.IsUnindexed (e : Entry) : Prop :=
  ∀ k ∈ e.key, ∃ w ∈ nameWords, asciiKeyword? w k = some []

/-- The name is written with the index. -/
def Entry.SaysIndex (i : Nat) (e : Entry) : Prop := ∃ k ∈ e.key, KeyMeaning.of k = .name (some i)

instance (e : Entry) : Decidable e.IsUnindexed :=
  inferInstanceAs (Decidable (∀ k ∈ e.key, ∃ w ∈ nameWords, asciiKeyword? w k = some []))

section Indices

variable {e : Entry} {key : Text}

theorem Entry.isUnindexed_iff (h : e.key = Text.nonempty? key) :
    e.IsUnindexed ↔ KeyMeaning.of key = .name none := by
  rw [keyMeaning_eq_name_none_iff, IsUnindexed, h]
  cases key with
  | nil => simp [Text.nonempty?]
  | cons c r => simp [Text.nonempty?]

theorem Entry.saysIndex_iff (h : e.key = Text.nonempty? key) (i : Nat) :
    e.SaysIndex i ↔ KeyMeaning.of key = .name (some i) := by
  have hnil : KeyMeaning.of [] = .name none := rfl
  rw [SaysIndex, h]
  cases key with
  | nil => simp [Text.nonempty?, hnil]
  | cons c r => simp [Text.nonempty?]

end Indices

/-! ## 2. Counting names -/

section Counting

variable {s : Tally} {segment : Text} {segments : List Text} {e f : Entry}

/-- What is read as a name, with its index and what has been counted behind it: a name without an
index is the next one, and one with an index counts up to it. -/
theorem readSegment_name (h : (readSegment s segment).1 = some e) (hname : e.isName = true) :
    (e.IsUnindexed ∧ (∀ j, ¬ e.SaysIndex j) ∧ e.index = s.names + 1 ∧
        (readSegment s segment).2.names = e.index) ∨
      ∃ i, ¬ e.IsUnindexed ∧ (∀ j, e.SaysIndex j ↔ i = j) ∧ e.index = max i 1 ∧
        (readSegment s segment).2.names = max s.names i := by
  obtain ⟨hvalue, he⟩ := value_of_readSegment h
  have hkey : e.key = Text.nonempty? (Assignment.ofSegment segment).key := by rw [he]
  have hrole : (KeyMeaning.of (Assignment.ofSegment segment).key).role = .name := by
    rw [he] at hname
    rw [← s.role_count]
    exact of_decide_eq_true hname
  have hindex : e.index =
      max (s.count (KeyMeaning.of (Assignment.ofSegment segment).key)).2.1 1 := by rw [he]
  rw [readSegment_of_value hvalue, e.isUnindexed_iff hkey, hindex]
  simp only [e.saysIndex_iff hkey]
  cases hm : KeyMeaning.of (Assignment.ofSegment segment).key with
  | unknown index =>
    rw [hm] at hrole
    cases hrole
  | part role index =>
    rw [hm] at hrole
    exact absurd hrole (role_of_part hm).1
  | name index =>
    cases index with
    | none => simp [Tally.count, Tally.keep]
    | some i => exact .inr ⟨i, by simp, by simp, rfl, rfl⟩

/-- A name has no index, or the one that is written, where zero counts as one. -/
theorem index_of_mem_readEntries (h : f ∈ readEntries s segments) (hname : f.isName = true) :
    f.IsUnindexed ∨ ∃ i, f.SaysIndex i ∧ f.index = max i 1 := by
  induction segments generalizing s with
  | nil => cases h
  | cons segment rest ih =>
    rw [readEntries_cons, List.mem_append, Option.mem_toList] at h
    rcases h with h | h
    · rcases readSegment_name h hname with ⟨hfree, -⟩ | ⟨i, -, hsaid, hindex, -⟩
      · exact .inl hfree
      · exact .inr ⟨i, (hsaid i).mpr rfl, hindex⟩
    · exact ih h

/-- A name without an index comes behind everything that has been counted. -/
theorem names_lt_of_unindexed (h : f ∈ readEntries s segments) (hname : f.isName = true)
    (hfree : f.IsUnindexed) : s.names < f.index := by
  induction segments generalizing s with
  | nil => cases h
  | cons segment rest ih =>
    rw [readEntries_cons, List.mem_append, Option.mem_toList] at h
    rcases h with h | h
    · rcases readSegment_name h hname with ⟨-, -, hindex, -⟩ | ⟨i, hindexed, -⟩
      · omega
      · exact absurd hfree hindexed
    · exact Nat.lt_of_le_of_lt (names_le_readSegment s segment) (ih h)

/-- Names without an index come behind the names before them, but for those with the index zero. -/
theorem pairwise_names (s : Tally) (segments : List Text) :
    ((readEntries s segments).filter Entry.isName).Pairwise fun e f =>
      f.IsUnindexed → (e.index < f.index ↔ ¬ (e.SaysIndex 0 ∧ f.index = 1)) := by
  induction segments generalizing s with
  | nil => exact .nil
  | cons segment rest ih =>
    rw [readEntries_cons]
    cases hread : (readSegment s segment).1 with
    | none => exact ih _
    | some e =>
      rw [Option.toList_some, List.singleton_append]
      cases hname : e.isName with
      | false =>
        rw [List.filter_cons_of_neg (by simp [hname])]
        exact ih _
      | true =>
        rw [List.filter_cons_of_pos hname]
        refine List.pairwise_cons.mpr ⟨fun f hf hfree => ?_, ih _⟩
        obtain ⟨hmem, hf⟩ := List.mem_filter.mp hf
        -- what has been counted behind the one name lies between the two
        have hlt := names_lt_of_unindexed hmem hf hfree
        rcases readSegment_name hread hname with ⟨-, hno, -, hnames⟩ | ⟨i, -, hsaid, hindex, hnames⟩
        · exact iff_of_true (hnames ▸ hlt) fun h => hno 0 h.1
        · rw [hsaid, hindex]
          omega

end Counting

/-! ## 3. Names of a chain -/

/-- **A name without an index takes a free position**, unless that is the first one and a name with
the index zero has it.  Of two names the later one, if it has no index, comes behind the earlier
one, exactly but for this case.  Two names share a position only if the later one is written with
it, or if it is the first one and one of the two is written with the index zero. -/
theorem names_at_free_positions (t : Text) :
    ((chainEntries t).filter Entry.isName).Pairwise fun e f =>
      (f.IsUnindexed → (e.index < f.index ↔ ¬ (e.SaysIndex 0 ∧ f.index = 1))) ∧
      (e.index = f.index →
        f.SaysIndex f.index ∨ f.index = 1 ∧ (e.SaysIndex 0 ∨ f.SaysIndex 0)) := by
  obtain ⟨segments, -, hsegments⟩ := exists_segments t
  rw [chainEntries, hsegments]
  refine (pairwise_names {} segments).imp_of_mem fun {e f} _ hf hbehind => ⟨hbehind, fun heq => ?_⟩
  obtain ⟨hmem, hname⟩ := List.mem_filter.mp hf
  rcases index_of_mem_readEntries hmem hname with hfree | ⟨i, hsaid, hindex⟩
  · have hshared : e.SaysIndex 0 ∧ f.index = 1 := by
      by_contra hno
      exact absurd ((hbehind hfree).mpr hno) (by omega)
    exact .inr ⟨hshared.2, .inl hshared.1⟩
  · rcases Nat.eq_zero_or_pos i with rfl | hpos
    · exact .inr ⟨hindex, .inr hsaid⟩
    · rw [Nat.max_eq_left hpos] at hindex
      exact .inl (hindex ▸ hsaid)

/-- **The first position is given away twice.**  The index zero counts as the first position, but
the name without an index behind it gets that too. -/
theorem position_shared_with_zero :
    let t := "0=a|b".toList
    (chainEntries t).map (fun e => (e.value, e.index)) = [("a".toList, 1), ("b".toList, 1)] ∧
      ¬ ((chainEntries t).filter Entry.isName).Pairwise fun e f =>
        f.IsUnindexed → e.index < f.index := by
  decide

end CiteMarkup
