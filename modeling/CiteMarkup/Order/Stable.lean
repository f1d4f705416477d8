import CiteMarkup.Text.Basic
/-!
# Stable sorting

Marks, occurrences, edits and names are put in order by one sort: what the order does not
tell apart stays in the order in which it came.  The sort recurses on the list, so that a
sorted list of known elements can be computed inside a proof.  Whoever keeps a part of a sorted
list keeps it sorted (`filter_sortStable`).
-/

namespace CiteMarkup

variable {α : Type}

/-! ## The sort -/

/-- The list with `x` in front of the first element that it may stand before. -/
def insertStable (le : α → α → Bool) (x : α) : List α → List α
  | [] => [x]
  | y :: r => if le x y then x :: y :: r else y :: insertStable le x r

/-- The list in the order `le`; what stands for the same keeps its order. -/
def sortStable (le : α → α → Bool) : List α → List α
  | [] => []
  | x :: r => insertStable le x (sortStable le r)

/-! ## What sorting keeps -/

section Kept

variable {le : α → α → Bool} {x y : α} {l : List α}

theorem mem_insertStable : y ∈ insertStable le x l ↔ y = x ∨ y ∈ l := by
  induction l with
  | nil => simp [insertStable]
  | cons z r ih =>
    rw [insertStable]
    split
    · exact List.mem_cons
    · rw [List.mem_cons, ih, List.mem_cons, or_left_comm]

theorem insertStable_of_le (h : ∀ y ∈ l, le x y = true) : insertStable le x l = x :: l := by
  cases l with
  | nil => rfl
  | cons y r => rw [insertStable, if_pos (h y List.mem_cons_self)]

variable (total : ∀ a b, le a b ∨ le b a) (trans : ∀ a b c, le a b → le b c → le a c)
include trans

theorem filter_insertStable (hl : l.Pairwise fun a b => le a b = true) (keep : α → Bool) (x : α) :
    (insertStable le x l).filter keep =
      if keep x then insertStable le x (l.filter keep) else l.filter keep := by
  induction l with
  | nil => cases hx : keep x <;> simp [insertStable, hx]
  | cons y r ih =>
    obtain ⟨hy, hr⟩ := List.pairwise_cons.mp hl
    rw [insertStable]
    split
    · rename_i hxy
      have hall : ∀ z ∈ (y :: r).filter keep, le x z = true := by
        intro z hz
        rcases List.mem_cons.mp (List.mem_filter.mp hz).1 with rfl | hz
        · exact hxy
        · exact trans x y z hxy (hy z hz)
      rw [insertStable_of_le hall, List.filter_cons]
    · rename_i hxy
      rw [List.filter_cons, ih hr, List.filter_cons]
      by_cases hky : keep y = true
      · simp only [hky, if_true, insertStable, hxy, Bool.false_eq_true, if_false]
        split <;> rfl
      · simp only [hky, Bool.false_eq_true, if_false]

include total

theorem pairwise_insertStable (h : l.Pairwise fun a b => le a b) :
    (insertStable le x l).Pairwise fun a b => le a b := by
  induction l with
  | nil => exact List.pairwise_singleton _ _
  | cons y r ih =>
    obtain ⟨hy, hr⟩ := List.pairwise_cons.mp h
    rw [insertStable]
    split
    · rename_i hxy
      refine List.pairwise_cons.mpr ⟨fun z hz => ?_, h⟩
      rcases List.mem_cons.mp hz with rfl | hz
      · exact hxy
      · exact trans x y z hxy (hy z hz)
    · rename_i hxy
      refine List.pairwise_cons.mpr ⟨fun z hz => ?_, ih hr⟩
      rcases mem_insertStable.mp hz with rfl | hz
      · exact (total z y).resolve_left hxy
      · exact hy z hz

/-- Under a total preorder the sorted list is in order. -/
theorem pairwise_sortStable (l : List α) : (sortStable le l).Pairwise fun a b => le a b := by
  induction l with
  | nil => exact List.Pairwise.nil
  | cons x r ih => exact pairwise_insertStable total trans ih

/-- Sorting what is left over leaves it as it has been sorted. -/
theorem filter_sortStable (keep : α → Bool) (l : List α) :
    (sortStable le l).filter keep = sortStable le (l.filter keep) := by
  induction l with
  | nil => rfl
  | cons x r ih =>
    rw [sortStable, filter_insertStable trans (pairwise_sortStable total trans r), ih,
      List.filter_cons]
    split <;> rfl

end Kept

end CiteMarkup
