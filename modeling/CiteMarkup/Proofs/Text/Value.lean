import CiteMarkup.Text.Blank
import Mathlib.Data.List.Basic
/-!
# Values, numbers and keys

What is read as a value has no blanks around it (`Trimmed`), and trimming changes nothing about
it then.  A number is written in digits and can be read back from them.
-/

namespace CiteMarkup

theorem isAsciiDigit_iff {c : Char} : isAsciiDigit c = true ↔ 48 ≤ c.toNat ∧ c.toNat ≤ 57 := by
  simp only [isAsciiDigit, Bool.and_eq_true, decide_eq_true_eq, Char.le_def,
    UInt32.le_iff_toNat_le]
  rfl

theorem isAsciiLetter_iff {c : Char} : isAsciiLetter c = true ↔
    97 ≤ c.toNat ∧ c.toNat ≤ 122 ∨ 65 ≤ c.toNat ∧ c.toNat ≤ 90 := by
  simp only [isAsciiLetter, Bool.or_eq_true, Bool.and_eq_true, decide_eq_true_eq, Char.le_def,
    UInt32.le_iff_toNat_le]
  rfl

theorem nonempty?_of_ne {t : Text} (h : t ≠ []) : Text.nonempty? t = some t := by
  cases t with
  | nil => exact absurd rfl h
  | cons c r => rfl

theorem eq_of_nonempty? {t u : Text} (h : Text.nonempty? t = some u) : t = u := by
  unfold Text.nonempty? at h
  split at h
  · cases h
  · exact Option.some.inj h

theorem ne_nil_of_nonempty? {t u : Text} (h : Text.nonempty? t = some u) : u ≠ [] := by
  unfold Text.nonempty? at h
  split at h
  · cases h
  · rename_i hne
    rw [← Option.some.inj h]
    rintro rfl
    exact hne rfl

namespace Text

variable {t u v : Text}

/-! ## 1. Texts without blanks around them -/

/-- The text neither begins nor ends with a blank. -/
structure Trimmed (t : Text) : Prop where
  head : ∀ c ∈ t.head?, isBlank c = false
  last : ∀ c ∈ t.getLast?, isBlank c = false

instance (t : Text) : Decidable (Trimmed t) :=
  decidable_of_iff (t.head?.all (!isBlank ·) = true ∧ t.getLast?.all (!isBlank ·) = true)
    ⟨fun h => ⟨by simpa [Option.all_eq_true] using h.1, by simpa [Option.all_eq_true] using h.2⟩,
      fun h => ⟨by simpa [Option.all_eq_true] using h.head,
        by simpa [Option.all_eq_true] using h.last⟩⟩

theorem head_of_trimStart (t : Text) : ∀ c ∈ t.trimStart.head?, isBlank c = false := by
  intro c hc
  have h := List.head?_dropWhile_not isBlank t
  rw [trimStart] at hc
  rw [hc] at h
  simpa using h

theorem trimStart_eq_self (h : ∀ c ∈ t.head?, isBlank c = false) : t.trimStart = t := by
  cases t with
  | nil => rfl
  | cons c r => exact List.dropWhile_cons_of_neg (by simp [h c rfl])

theorem trimEnd_eq_self (h : ∀ c ∈ t.getLast?, isBlank c = false) : t.trimEnd = t := by
  have hreverse : trimStart t.reverse = t.reverse :=
    trimStart_eq_self (by rwa [List.head?_reverse])
  rw [trimEnd, ← trimStart, hreverse, List.reverse_reverse]

theorem Trimmed.trim_eq (h : t.Trimmed) : t.trim = t := by
  rw [trim, trimStart_eq_self h.head, trimEnd_eq_self h.last]

/-- What trimming leaves. -/
theorem trimmed_trim (t : Text) : t.trim.Trimmed := by
  constructor
  · intro c hc
    -- what is cut off at the end is not the beginning
    have hprefix : t.trim <+: t.trimStart := by
      rw [trim, trimEnd, ← List.reverse_suffix, List.reverse_reverse]
      exact List.dropWhile_suffix isBlank
    obtain ⟨more, hmore⟩ := hprefix
    refine head_of_trimStart t c ?_
    rw [← hmore, List.head?_append]
    simp [Option.mem_def.mp hc]
  · intro c hc
    rw [trim, trimEnd, List.getLast?_reverse] at hc
    exact head_of_trimStart t.trimStart.reverse c hc

/-- A text in the middle does not matter. -/
theorem Trimmed.append (hu : u.Trimmed) (hv : v.Trimmed) (hnu : u ≠ []) (hnv : v ≠ [])
    (w : Text) : Trimmed (u ++ (w ++ v)) := by
  constructor
  · rw [List.head?_append_of_ne_nil _ hnu]
    exact hu.head
  · rw [List.getLast?_append_of_ne_nil _ (by simp [hnv]), List.getLast?_append_of_ne_nil _ hnv]
    exact hv.last

/-! ## 2. Numbers -/

theorem toNat_digitChar : ∀ d < 10, d.digitChar.toNat - '0'.toNat = d := by
  decide

/-- A number can be read back from its digits. -/
theorem toNat_ofNat (n : Nat) : toNat (ofNat n) = n := by
  induction n using Nat.strongRecOn with
  | ind n ih =>
    rw [ofNat, Nat.toDigits_eq_if (by omega)]
    split
    · rename_i h
      simpa [toNat] using toNat_digitChar n h
    · have hlast := toNat_digitChar (n % 10) (by omega)
      have hfront := ih (n / 10) (by omega)
      rw [ofNat, toNat] at hfront
      rw [toNat, List.foldl_append, hfront, List.foldl_cons, List.foldl_nil, hlast]
      omega

theorem isAsciiDigit_of_mem_ofNat {n : Nat} {c : Char} (h : c ∈ ofNat n) :
    isAsciiDigit c = true := by
  have hdigit := Nat.isDigit_of_mem_toDigits (by omega) (by omega) h
  simpa [Char.isDigit, isAsciiDigit, Char.le_def] using hdigit

theorem ofNat_ne_nil (n : Nat) : ofNat n ≠ [] := by
  rw [ofNat]
  exact Nat.toDigits_ne_nil

end Text

/-! ## 3. Values and keys -/

/-- A value that is found again as it was written. -/
structure IsValue (v : Text) : Prop where
  nonempty : v ≠ []
  trimmed : v.Trimmed

instance (v : Text) : Decidable (IsValue v) :=
  decidable_of_iff (v ≠ [] ∧ v.Trimmed) ⟨fun h => ⟨h.1, h.2⟩, fun h => ⟨h.nonempty, h.trimmed⟩⟩

/-- A key that is written by itself: neither a bracket nor a separator stands in it. -/
def IsKey (key : Text) : Prop :=
  key ≠ [] ∧ ∀ c ∈ key, (isAsciiLetter c || isAsciiDigit c) = true

theorem ne_of_isKey {key : Text} {c d : Char} (hkey : IsKey key) (hc : c ∈ key)
    (hd : (isAsciiLetter d || isAsciiDigit d) = false) : c ≠ d := by
  rintro rfl
  rw [hkey.2 c hc] at hd
  cases hd

theorem isBlank_of_isKey {key : Text} {c : Char} (hkey : IsKey key) (hc : c ∈ key) :
    isBlank c = false := by
  have h := hkey.2 c hc
  rw [Bool.or_eq_true, isAsciiLetter_iff, isAsciiDigit_iff] at h
  simp only [isBlank, Bool.or_eq_false_iff, Bool.and_eq_false_iff, decide_eq_false_iff_not]
  omega

theorem trimmed_of_isKey {key : Text} (hkey : IsKey key) : key.Trimmed :=
  ⟨fun _ hc => isBlank_of_isKey hkey (List.mem_of_mem_head? hc),
    fun _ hc => isBlank_of_isKey hkey (List.mem_of_mem_getLast? hc)⟩

end CiteMarkup
