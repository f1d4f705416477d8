import CiteMarkup.Text.Blank
import Mathlib.Data.List.Basic
/-!
# Lengths of slices, and characters in them

Offsets are handed from one reader to the next, so most facts about where something stands on
a page come down to how long a slice or a trimmed text is, and to which character a slice has
at an offset.
-/

namespace CiteMarkup

/-! ## 1. Slices -/

namespace Text

variable {t : Text} {a b i : Nat}

@[simp] theorem length_slice (t : Text) (a b : Nat) :
    (t.slice a b).length = min b t.length - a := by
  simp [slice]

/-- Neighbouring slices make up one. -/
theorem slice_append_slice (t : Text) {a m b : Nat} (ham : a ≤ m) (hmb : m ≤ b) :
    t.slice a m ++ t.slice m b = t.slice a b := by
  have hfront : t.take m = (t.take b).take m := by
    rw [List.take_take, Nat.min_eq_left hmb]
  have hrest : (t.take b).drop m = ((t.take b).drop a).drop (m - a) := by
    rw [List.drop_drop]
    congr 1
    omega
  rw [slice, slice, slice, hfront, hrest, List.drop_take, List.take_append_drop]

@[simp] theorem slice_self (t : Text) (a : Nat) : t.slice a a = [] := by
  simp [slice]

/-- The rest of a text, as a slice. -/
theorem slice_length (t : Text) (a : Nat) : t.slice a t.length = t.drop a := by
  rw [slice, List.take_length]

/-- A slice of `n` characters. -/
theorem slice_add (t : Text) (a n : Nat) : t.slice a (a + n) = (t.drop a).take n := by
  rw [slice, List.drop_take, Nat.add_sub_cancel_left]

/-- A slice of the first of two texts. -/
theorem slice_append_left (u v : Text) (h : b ≤ u.length) :
    Text.slice (u ++ v) a b = Text.slice u a b := by
  rw [slice, slice, List.take_append_of_le_length h]

/-- A slice of the second of two texts. -/
theorem slice_append_right (u v : Text) (a b : Nat) :
    Text.slice (u ++ v) (u.length + a) (u.length + b) = Text.slice v a b := by
  rw [slice, slice, List.take_length_add_append, List.drop_length_add_append]

/-- A text in the middle of another one. -/
theorem slice_between (u v w : Text) (ha : a = u.length) (hb : b = u.length + v.length) :
    Text.slice (u ++ (v ++ w)) a b = v := by
  rw [slice, ha, hb, List.take_length_add_append, List.take_left, List.drop_left]

/-- An offset within a text stands for itself. -/
theorem upTo_natCast (t : Text) {n : Nat} {i : Int} (hi : i = n) (h : n ≤ t.length) :
    t.upTo i = t.take n := by
  rw [Text.upTo, Text.place, hi, if_pos (by omega), Int.toNat_natCast, Nat.min_eq_left h]

theorem onFrom_natCast (t : Text) {n : Nat} {i : Int} (hi : i = n) (h : n ≤ t.length) :
    t.onFrom i = t.drop n := by
  rw [Text.onFrom, Text.place, hi, if_pos (by omega), Int.toNat_natCast, Nat.min_eq_left h]

/-- A character of a slice is a character of the text. -/
theorem getElem?_slice (t : Text) (a b i : Nat) :
    (t.slice a b)[i]? = if a + i < b then t[a + i]? else none := by
  rw [slice, List.getElem?_drop, List.getElem?_take]

theorem getElem?_of_slice {c : Char} (h : (t.slice a b)[i]? = some c) :
    a + i < b ∧ t[a + i]? = some c := by
  rw [getElem?_slice] at h
  split at h
  · exact ⟨‹_›, h⟩
  · cases h

/-! ## 2. Trimmed texts -/

theorem length_trimStart (t : Text) : t.leadingBlanks + t.trimStart.length = t.length := by
  rw [leadingBlanks, trimStart, ← List.length_append, List.takeWhile_append_dropWhile]

theorem length_trimEnd_le (t : Text) : t.trimEnd.length ≤ t.length := by
  have h := (List.dropWhile_suffix isBlank (l := t.reverse)).length_le
  rw [List.length_reverse] at h
  rwa [trimEnd, List.length_reverse]

/-- A trimmed text begins behind the leading blanks and ends within the text. -/
theorem leadingBlanks_add_length_trim_le (t : Text) :
    t.leadingBlanks + t.trim.length ≤ t.length := by
  have h1 := length_trimStart t
  have h2 := length_trimEnd_le t.trimStart
  rw [trim]
  omega

/-- A text is its leading blanks, the trimmed text, and blanks. -/
theorem exists_trim (t : Text) : ∃ front back : Text, t = front ++ t.trim ++ back ∧
    front.length = t.leadingBlanks ∧ (∀ c ∈ front, isBlank c = true) ∧
      ∀ c ∈ back, isBlank c = true := by
  refine ⟨t.takeWhile isBlank, (t.trimStart.reverse.takeWhile isBlank).reverse, ?_, rfl,
    fun c hc => List.all_eq_true.mp List.all_takeWhile c hc,
    fun c hc => List.all_eq_true.mp List.all_takeWhile c (List.mem_reverse.mp hc)⟩
  have hend : t.trimStart.trimEnd ++ (t.trimStart.reverse.takeWhile isBlank).reverse =
      t.trimStart := by
    rw [trimEnd, ← List.reverse_append, List.takeWhile_append_dropWhile, List.reverse_reverse]
  rw [trim, List.append_assoc, hend, trimStart, List.takeWhile_append_dropWhile]

/-- Trimming takes away blanks only. -/
theorem mem_trim {t : Text} {c : Char} (h : c ∈ t) (hc : isBlank c = false) : c ∈ t.trim := by
  obtain ⟨front, back, heq, -, hfront, hback⟩ := exists_trim t
  rw [heq, List.mem_append, List.mem_append] at h
  rcases h with (h | h) | h
  · rw [hfront c h] at hc
    cases hc
  · exact h
  · rw [hback c h] at hc
    cases hc

/-- The trimmed text stands behind the leading blanks. -/
theorem slice_trim (t : Text) :
    t.slice t.leadingBlanks (t.leadingBlanks + t.trim.length) = t.trim := by
  obtain ⟨front, back, heq, hfront, -⟩ := exists_trim t
  have hslice : (front ++ t.trim ++ back).slice front.length
      (front.length + t.trim.length) = t.trim := by
    rw [List.append_assoc]
    exact slice_between _ _ _ rfl rfl
  rw [← hfront]
  calc t.slice front.length (front.length + t.trim.length)
      = (front ++ t.trim ++ back).slice front.length (front.length + t.trim.length) := by
        rw [← heq]
    _ = t.trim := hslice

/-- A slice of a slice is a slice. -/
theorem slice_slice (t : Text) {a b i j : Nat} (h : a + j ≤ b) :
    (t.slice a b).slice i j = t.slice (a + i) (a + j) := by
  rw [slice, slice, slice, List.take_drop, List.take_take, Nat.min_eq_left h, List.drop_drop]

/-- A slice of the rest of a text. -/
theorem slice_drop (t : Text) (a i j : Nat) :
    Text.slice (t.drop a) i j = t.slice (a + i) (a + j) := by
  rw [slice, slice, List.take_drop, List.drop_drop]

end Text

/-! ## 3. Stretches -/

namespace Span

/-- Two stretches have a character in common. -/
def Meets (s t : Span) : Prop := s.start < t.stop ∧ t.start < s.stop

/-- A stretch is part of another one. -/
def Within (s t : Span) : Prop := t.start ≤ s.start ∧ s.stop ≤ t.stop

/-- One stretch ends before the other begins. -/
def Apart (s t : Span) : Prop := s.stop ≤ t.start ∨ t.stop ≤ s.start

instance (s t : Span) : Decidable (s.Meets t) := inferInstanceAs (Decidable (_ ∧ _))

instance (s t : Span) : Decidable (s.Within t) := inferInstanceAs (Decidable (_ ∧ _))

variable {s t u : Span}

theorem Within.refl (s : Span) : s.Within s := ⟨Nat.le_refl _, Nat.le_refl _⟩

/-- What a part of a stretch has in common with another one, the whole has too. -/
theorem Meets.mono (h : s.Meets t) (hw : s.Within u) : u.Meets t :=
  ⟨Nat.lt_of_le_of_lt hw.1 h.1, Nat.lt_of_lt_of_le h.2 hw.2⟩

theorem Apart.symm (h : s.Apart t) : t.Apart s := Or.symm h

theorem Apart.mono (h : u.Apart t) (hw : s.Within u) : s.Apart t := by
  obtain ⟨h1, h2⟩ := hw
  rcases h with h | h
  · exact .inl (by omega)
  · exact .inr (by omega)

/-- Stretches either have something in common or are apart. -/
theorem apart_of_not_meets (h : ¬ s.Meets t) : s.Apart t := by
  unfold Meets at h
  unfold Apart
  omega

theorem not_meets_of_apart (h : s.Apart t) : ¬ s.Meets t := by
  unfold Meets
  unfold Apart at h
  omega

/-- In a list of stretches that follow each other, any two are the same or apart. -/
theorem apart_of_pairwise {α : Type} {span : α → Span} {l : List α}
    (h : l.Pairwise fun a b => (span a).stop ≤ (span b).start) {x y : α} (hx : x ∈ l)
    (hy : y ∈ l) : x = y ∨ (span x).Apart (span y) :=
  List.Pairwise.forall_of_forall_of_flip (R := fun a b => a = b ∨ (span a).Apart (span b))
    (fun _ _ => .inl rfl) (h.imp fun hab => .inr (.inl hab))
    (h.imp fun hab => .inr (.inr hab)) hx hy

@[simp] theorem start_ofLength (a n : Nat) : (ofLength a n).start = a := rfl

@[simp] theorem stop_ofLength (a n : Nat) : (ofLength a n).stop = a + n := rfl

@[simp] theorem start_shift (n : Nat) (s : Span) : (s.shift n).start = n + s.start := rfl

@[simp] theorem stop_shift (n : Nat) (s : Span) : (s.shift n).stop = n + s.stop := rfl

theorem contains_iff {i : Nat} : s.contains i = true ↔ s.start ≤ i ∧ i < s.stop := by
  simp [contains]

end Span
end CiteMarkup
