import CiteMarkup.Metadata.Date
import CiteMarkup.Proofs.Text.Read
import CiteMarkup.Proofs.Text.Slice
import CiteMarkup.Proofs.Text.Value
import Mathlib.Data.Nat.Find
import Mathlib.Order.Bounds.Basic
/-!
# Years in a text

A year is taken from the first run of digits that is exactly four long (`Year.at_first_run`).  The
reader goes over the text once and remembers only whether a digit stands in front of the character
it has come to.  That is all it has to know of the front to tell where a run begins, so the runs of
the whole text and those of the rest differ by the first character alone (`isRunAfter_succ`).

The reader never sees ASCII digits in place of others.  It need not: the digits of all scripts stand
where the ASCII digits stand after conversion (`isAsciiDigit_asciiDigit`), one for one, so the runs
of both texts have the same places (`isRun_asciiDigits`).
-/

namespace CiteMarkup

/-! ## 1. Digits and their conversion -/

section Digits

variable {c : Char} {d : Nat}

/-- A decimal digit has one of ten values. -/
theorem digitValue?_lt (h : digitValue? c = some d) : d < 10 := by
  unfold digitValue? at h
  split at h
  · split at h
    · rename_i hdigit
      have hzero : '0'.toNat = 48 := rfl
      rw [isAsciiDigit_iff] at hdigit
      rw [Option.some.injEq, hzero] at h
      omega
    · cases h
  · obtain ⟨z, hz, rfl⟩ := Option.map_eq_some_iff.mp h
    have hrow := List.find?_some hz
    simp only [Bool.and_eq_true, decide_eq_true_eq] at hrow
    omega

/-- What has no value is no ASCII digit either. -/
theorem isAsciiDigit_of_digitValue? (h : digitValue? c = none) : isAsciiDigit c = false := by
  unfold digitValue? at h
  split at h
  · split at h
    · cases h
    · exact Bool.eq_false_iff.mpr ‹_›
  · rename_i hascii
    rw [isAscii, decide_eq_true_eq] at hascii
    refine Bool.eq_false_iff.mpr fun hdigit => hascii ?_
    rw [isAsciiDigit_iff] at hdigit
    omega

/-- **Conversion makes ASCII digits of all decimal digits, and of nothing else.** -/
theorem isAsciiDigit_asciiDigit (c : Char) : isAsciiDigit (asciiDigit c) = isDigit c := by
  unfold asciiDigit isDigit
  cases h : digitValue? c with
  | none => exact isAsciiDigit_of_digitValue? h
  | some d =>
    have hd : d < 10 := digitValue?_lt h
    have hzero : '0'.toNat = 48 := rfl
    refine isAsciiDigit_iff.mpr ?_
    rw [hzero, toNat_ofNat (by omega)]
    omega

end Digits

/-! ## 2. Runs -/

namespace Text

variable {p : Char → Bool} {t r : Text} {c : Char} {a b i n : Nat} {inRun : Bool}

/-- A character with the property `p` stands at the offset. -/
def Has (p : Char → Bool) (t : Text) (i : Nat) : Prop := (t[i]?).any p = true

/-- The stretch from `a` up to `b` is a run of characters with the property `p`, and no such
character stands right in front of it or right behind it. -/
structure IsWholeRun (p : Char → Bool) (t : Text) (a b : Nat) : Prop where
  inside : ∀ i, a ≤ i → i < b → t.Has p i
  front : ∀ i, i + 1 = a → ¬ t.Has p i
  behind : ¬ t.Has p b

/-- The same in a text in front of which a character with the property stands or does not. -/
structure IsRunAfter (p : Char → Bool) (inRun : Bool) (t : Text) (a b : Nat) : Prop
    extends IsWholeRun p t a b where
  first : a = 0 → inRun = false

theorem isRunAfter_false : IsRunAfter p false t a b ↔ IsWholeRun p t a b :=
  ⟨fun h => h.toIsWholeRun, fun h => ⟨h, fun _ => rfl⟩⟩

theorem not_has_nil : ¬ Has p [] i := by
  simp [Has]

@[simp] theorem has_cons_zero : Has p (c :: r) 0 ↔ p c = true := by
  simp [Has]

@[simp] theorem has_cons_succ : Has p (c :: r) (i + 1) ↔ r.Has p i := by
  simp [Has]

/-- **The runs behind the first character are those of the rest**, which stands behind that
character. -/
theorem isRunAfter_succ :
    IsRunAfter p inRun (c :: r) (a + 1) (b + 1) ↔ IsRunAfter p (p c) r a b := by
  constructor
  · intro h
    refine ⟨⟨fun i ha hb => ?_, fun i hi => ?_, ?_⟩, fun ha => ?_⟩
    · exact has_cons_succ.mp (h.inside (i + 1) (by omega) (by omega))
    · exact fun hhas => h.front (i + 1) (by omega) (has_cons_succ.mpr hhas)
    · exact fun hhas => h.behind (has_cons_succ.mpr hhas)
    · exact Bool.eq_false_iff.mpr fun hc => h.front 0 (by omega) (has_cons_zero.mpr hc)
  · intro h
    refine ⟨⟨fun i ha hb => ?_, fun i hi => ?_, ?_⟩, fun ha => absurd ha (Nat.succ_ne_zero a)⟩
    · obtain ⟨j, rfl⟩ : ∃ j, i = j + 1 := ⟨i - 1, by omega⟩
      exact has_cons_succ.mpr (h.inside j (by omega) (by omega))
    · cases i with
      | zero =>
        rw [has_cons_zero, h.first (by omega)]
        exact Bool.false_ne_true
      | succ j => exact fun hhas => h.front j (by omega) (has_cons_succ.mp hhas)
    · exact fun hhas => h.behind (has_cons_succ.mp hhas)

/-- A run at the beginning is all that is read while the property holds. -/
theorem length_takeWhile_iff :
    (t.takeWhile p).length = n ↔ (∀ i < n, t.Has p i) ∧ ¬ t.Has p n := by
  induction t generalizing n with
  | nil =>
    constructor
    · rintro rfl
      exact ⟨fun i hi => absurd hi (Nat.not_lt_zero i), not_has_nil⟩
    · rintro ⟨hall, -⟩
      by_contra hne
      exact not_has_nil (hall 0 (Nat.pos_of_ne_zero fun h => hne h.symm))
  | cons c r ih =>
    cases hc : p c with
    | false =>
      rw [List.takeWhile_cons_of_neg (by simp [hc])]
      constructor
      · rintro rfl
        exact ⟨fun i hi => absurd hi (Nat.not_lt_zero i), by simp [hc]⟩
      · rintro ⟨hall, -⟩
        by_contra hne
        have hzero := hall 0 (Nat.pos_of_ne_zero fun h => hne h.symm)
        rw [has_cons_zero, hc] at hzero
        cases hzero
    | true =>
      rw [List.takeWhile_cons_of_pos hc, List.length_cons]
      cases n with
      | zero => simp [hc]
      | succ n =>
        rw [Nat.add_right_cancel_iff, ih, has_cons_succ]
        refine and_congr_left fun _ => ⟨fun hall i hi => ?_, fun hall i hi => ?_⟩
        · cases i with
          | zero => exact has_cons_zero.mpr hc
          | succ i => exact has_cons_succ.mpr (hall i (by omega))
        · exact has_cons_succ.mp (hall (i + 1) (by omega))

theorem isRunAfter_zero :
    IsRunAfter p inRun t 0 n ↔ inRun = false ∧ (t.takeWhile p).length = n := by
  rw [length_takeWhile_iff]
  constructor
  · intro h
    exact ⟨h.first rfl, fun i hi => h.inside i (Nat.zero_le i) hi, h.behind⟩
  · rintro ⟨hfirst, hall, hbehind⟩
    exact ⟨⟨fun i _ hi => hall i hi, fun i hi => absurd hi (Nat.succ_ne_zero i), hbehind⟩,
      fun _ => hfirst⟩

theorem has_asciiDigits : t.asciiDigits.Has isAsciiDigit i ↔ t.Has isDigit i := by
  rw [Has, Has, asciiDigits, List.getElem?_map]
  cases t[i]? with
  | none => rfl
  | some c => simp [isAsciiDigit_asciiDigit]

/-- **Conversion leaves the runs of digits where they are.** -/
theorem isRun_asciiDigits :
    IsWholeRun isAsciiDigit t.asciiDigits a b ↔ IsWholeRun isDigit t a b := by
  constructor
  · intro h
    exact ⟨fun i ha hb => has_asciiDigits.mp (h.inside i ha hb),
      fun i hi hhas => h.front i hi (has_asciiDigits.mpr hhas),
      fun hhas => h.behind (has_asciiDigits.mpr hhas)⟩
  · intro h
    exact ⟨fun i ha hb => has_asciiDigits.mpr (h.inside i ha hb),
      fun i hi hhas => h.front i hi (has_asciiDigits.mp hhas),
      fun hhas => h.behind (has_asciiDigits.mp hhas)⟩

theorem asciiDigits_slice (t : Text) (a b : Nat) :
    asciiDigits (t.slice a b) = t.asciiDigits.slice a b := by
  rw [asciiDigits, asciiDigits, slice, slice, List.map_drop, List.map_take]

end Text

/-! ## 3. The first run of four -/

section First

variable {c : Char} {t r run : Text} {inRun : Bool}

/-- The least number is zero, or it is one more than the least of the numbers behind. -/
theorem isLeast_cases {S : Set Nat} {a : Nat} :
    IsLeast S a ↔ (0 ∈ S ∧ a = 0) ∨ (0 ∉ S ∧ ∃ k, a = k + 1 ∧ IsLeast {k | k + 1 ∈ S} k) := by
  constructor
  · rintro ⟨hmem, hleast⟩
    by_cases hzero : 0 ∈ S
    · exact .inl ⟨hzero, Nat.le_zero.mp (hleast hzero)⟩
    · obtain ⟨k, rfl⟩ : ∃ k, a = k + 1 :=
        Nat.exists_eq_succ_of_ne_zero fun h => hzero (h ▸ hmem)
      exact .inr ⟨hzero, k, rfl, hmem, fun j hj => Nat.le_of_succ_le_succ (hleast hj)⟩
  · rintro (⟨hzero, rfl⟩ | ⟨hzero, k, rfl, hmem, hleast⟩)
    · exact ⟨hzero, fun j _ => Nat.zero_le j⟩
    · refine ⟨hmem, fun j hj => ?_⟩
      cases j with
      | zero => exact absurd hj hzero
      | succ j => exact Nat.succ_le_succ (hleast hj)

/-- The offsets at which a run of four digits begins. -/
def fourDigits (inRun : Bool) (t : Text) : Set Nat :=
  {a | t.IsRunAfter isDigit inRun a (a + 4)}

theorem zero_mem_fourDigits :
    0 ∈ fourDigits inRun t ↔ inRun = false ∧ (t.takeWhile isDigit).length = 4 :=
  Text.isRunAfter_zero

theorem fourDigits_cons : {k | k + 1 ∈ fourDigits inRun (c :: r)} = fourDigits (isDigit c) r :=
  Set.ext fun _ => Text.isRunAfter_succ

/-- A year that begins with the first character is read at once. -/
theorem yearFrom?_of_first (h : 0 ∈ fourDigits inRun (c :: r)) :
    yearFrom? inRun (c :: r) = some (Text.slice (c :: r) 0 4) := by
  have hc : isDigit c = true := Text.has_cons_zero.mp (h.inside 0 (Nat.le_refl 0) (by omega))
  obtain ⟨hfirst, hlen⟩ := zero_mem_fourDigits.mp h
  have hprefix := List.prefix_iff_eq_take.mp (List.takeWhile_prefix isDigit (l := c :: r))
  rw [hlen] at hprefix
  rw [yearFrom?, if_pos hc, Text.slice, List.drop_zero, ← hprefix]
  exact if_pos (by simp [hfirst, hlen])

/-- Otherwise the reading goes on behind it. -/
theorem yearFrom?_of_not_first (h : 0 ∉ fourDigits inRun (c :: r)) :
    yearFrom? inRun (c :: r) = yearFrom? (isDigit c) r := by
  rw [zero_mem_fourDigits] at h
  cases hc : isDigit c with
  | false =>
    rw [yearFrom?, if_neg (by simp [hc])]
  | true =>
    have hno : ¬ (!inRun && decide (((c :: r).takeWhile isDigit).length = 4)) = true := by
      simpa using h
    rw [yearFrom?, if_pos hc]
    exact if_neg hno

/-- **The reader finds the first run of four digits.** -/
theorem yearFrom?_eq_some_iff :
    yearFrom? inRun t = some run ↔
      ∃ a, IsLeast (fourDigits inRun t) a ∧ run = t.slice a (a + 4) := by
  induction t generalizing inRun with
  | nil =>
    constructor
    · intro h
      cases h
    · rintro ⟨a, ⟨hrun, -⟩, -⟩
      exact absurd (hrun.inside a (Nat.le_refl a) (by omega)) Text.not_has_nil
  | cons c r ih =>
    have hslice : ∀ k, Text.slice (c :: r) (k + 1) (k + 1 + 4) = Text.slice r k (k + 4) :=
      fun k => rfl
    by_cases hfirst : 0 ∈ fourDigits inRun (c :: r)
    · rw [yearFrom?_of_first hfirst, Option.some.injEq]
      constructor
      · rintro rfl
        exact ⟨0, isLeast_cases.mpr (.inl ⟨hfirst, rfl⟩), rfl⟩
      · rintro ⟨a, hleast, rfl⟩
        rcases isLeast_cases.mp hleast with ⟨-, rfl⟩ | ⟨hno, -⟩
        · rfl
        · exact absurd hfirst hno
    · rw [yearFrom?_of_not_first hfirst, ih]
      constructor
      · rintro ⟨k, hleast, rfl⟩
        refine ⟨k + 1, isLeast_cases.mpr (.inr ⟨hfirst, k, rfl, ?_⟩), (hslice k).symm⟩
        rwa [fourDigits_cons]
      · rintro ⟨a, hleast, rfl⟩
        rcases isLeast_cases.mp hleast with ⟨hzero, -⟩ | ⟨-, k, rfl, hrest⟩
        · exact absurd hzero hfirst
        · rw [fourDigits_cons] at hrest
          exact ⟨k, hrest, hslice k⟩

theorem length_of_yearFrom? (h : yearFrom? inRun t = some run) : run.length = 4 := by
  fun_induction yearFrom? inRun t with
  | case1 => cases h
  | case2 inRun c r hc digits hfour =>
    rw [← Option.some.inj h]
    simp only [Bool.and_eq_true, decide_eq_true_eq] at hfour
    exact hfour.2
  | case3 inRun c r hc digits hfour ih => exact ih h
  | case4 inRun c r hc ih => exact ih h

end First

namespace Year

/-- **The year of a text is its first run of exactly four digits.**  There is a year if and only if
the text, converted to ASCII digits, has a whole run of four of them.  The year in ASCII digits is
the first such run, the year as it is written is what the text itself has at that place, and one is
the other one converted. -/
theorem at_first_run (t : Text) :
    ((find? t).isSome = true ↔
        ∃ a, t.asciiDigits.IsWholeRun isAsciiDigit a (a + 4)) ∧
      ∀ y, find? t = some y ↔
        ∃ a, IsLeast {a | t.asciiDigits.IsWholeRun isAsciiDigit a (a + 4)} a ∧
          y.ascii = t.asciiDigits.slice a (a + 4) ∧ y.written = t.slice a (a + 4) ∧
          Text.asciiDigits y.written = y.ascii := by
  have hruns : {a | t.asciiDigits.IsWholeRun isAsciiDigit a (a + 4)} = fourDigits false t := by
    ext a
    exact Text.isRun_asciiDigits.trans Text.isRunAfter_false.symm
  have hfind : ∀ y, find? t = some y ↔
      ∃ a, IsLeast {a | t.asciiDigits.IsWholeRun isAsciiDigit a (a + 4)} a ∧
        y.ascii = t.asciiDigits.slice a (a + 4) ∧ y.written = t.slice a (a + 4) ∧
        Text.asciiDigits y.written = y.ascii := by
    intro y
    rw [hruns, find?, Option.map_eq_some_iff]
    constructor
    · rintro ⟨run, hrun, rfl⟩
      obtain ⟨a, hleast, rfl⟩ := yearFrom?_eq_some_iff.mp hrun
      exact ⟨a, hleast, Text.asciiDigits_slice t a (a + 4), rfl, rfl⟩
    · rintro ⟨a, hleast, -, hwritten, hascii⟩
      refine ⟨y.written, yearFrom?_eq_some_iff.mpr ⟨a, hleast, hwritten⟩, ?_⟩
      rw [hascii]
  refine ⟨?_, hfind⟩
  rw [Option.isSome_iff_exists]
  constructor
  · rintro ⟨y, hy⟩
    obtain ⟨a, hleast, -⟩ := (hfind y).mp hy
    exact ⟨a, hleast.1⟩
  · intro h
    classical
    have hleast : IsLeast {a | t.asciiDigits.IsWholeRun isAsciiDigit a (a + 4)} (Nat.find h) :=
      ⟨Nat.find_spec h, fun b hb => Nat.find_min' h hb⟩
    exact ⟨⟨_, _⟩, (hfind _).mpr
      ⟨_, hleast, rfl, rfl, Text.asciiDigits_slice t (Nat.find h) (Nat.find h + 4)⟩⟩

example : find? "p. 12345, ٢٠١٩".toList = some ⟨"٢٠١٩".toList, "2019".toList⟩ := by
  decide +kernel

end Year
end CiteMarkup
