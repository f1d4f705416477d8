import CiteMarkup.Tag.Reference
import Mathlib.Data.List.Perm.Subperm
import Mathlib.Data.List.Sort
/-!
# The one sort of the library

`sortStable` is insertion sort, so what the list library knows about that holds of it: it
keeps the elements (`sortStable_perm`) and puts them in order (`pairwise_sortStable`).  Most
lists are sorted by where their elements begin on the page; `sortByStart` gets the same facts
in that form.  A list from which dropping repetitions takes nothing away has none
(`nodup_of_length_eraseDups`).
-/

namespace CiteMarkup

variable {α : Type}

/-! ## 1. Sorting by any order -/

theorem insertStable_eq (le : α → α → Bool) (x : α) : ∀ l : List α,
    insertStable le x l = l.orderedInsert (fun a b => le a b = true) x
  | [] => rfl
  | y :: r => by
    simp only [insertStable, List.orderedInsert_cons, insertStable_eq le x r]

theorem sortStable_eq (le : α → α → Bool) : ∀ l : List α,
    sortStable le l = l.insertionSort (fun a b => le a b = true)
  | [] => rfl
  | x :: r => by
    rw [sortStable, List.insertionSort_cons, insertStable_eq, sortStable_eq le r]

/-- Sorting neither drops nor doubles an element. -/
theorem sortStable_perm (le : α → α → Bool) (l : List α) : (sortStable le l).Perm l := by
  rw [sortStable_eq]
  exact List.perm_insertionSort _ l

@[simp] theorem mem_sortStable {le : α → α → Bool} {l : List α} {x : α} :
    x ∈ sortStable le l ↔ x ∈ l :=
  (sortStable_perm le l).mem_iff

/-! ## 2. Sorting by place -/

variable (start : α → Nat) (l : List α)

theorem sortByStart_perm : (sortByStart start l).Perm l := sortStable_perm _ l

@[simp] theorem mem_sortByStart {x : α} : x ∈ sortByStart start l ↔ x ∈ l := mem_sortStable

theorem pairwise_sortByStart : (sortByStart start l).Pairwise fun a b => start a ≤ start b := by
  have h : (sortByStart start l).Pairwise fun a b => decide (start a ≤ start b) = true := by
    refine pairwise_sortStable (fun a b => ?_) (fun a b c hab hbc => ?_) l
    · simpa using Nat.le_total (start a) (start b)
    · simp only [decide_eq_true_eq] at *
      omega
  simpa using h

variable {start l}

/-- What begins at different places is strictly in order. -/
theorem pairwise_lt_sortByStart (h : l.Pairwise fun a b => start a ≠ start b) :
    (sortByStart start l).Pairwise fun a b => start a < start b := by
  have hne : (sortByStart start l).Pairwise fun a b => start a ≠ start b :=
    ((sortByStart_perm start l).pairwise_iff fun hab => Ne.symm hab).mpr h
  refine (hne.and (pairwise_sortByStart start l)).imp ?_
  rintro a b ⟨hab, hle⟩
  omega

/-! ## 3. Lists without repetition -/

section Distinct

variable [BEq α] [LawfulBEq α]

theorem nodup_eraseDups : ∀ l : List α, l.eraseDups.Nodup
  | [] => by simp
  | a :: l => by
    rw [List.eraseDups_cons, List.nodup_cons, List.mem_eraseDups]
    exact ⟨by simp, nodup_eraseDups _⟩
termination_by l => l.length
decreasing_by exact Nat.lt_succ_of_le (List.length_filter_le ..)

theorem nodup_of_length_eraseDups {l : List α} (h : l.eraseDups.length = l.length) : l.Nodup := by
  have hperm : l.eraseDups.Perm l :=
    ((nodup_eraseDups l).subperm fun _ hx => List.mem_eraseDups.mp hx).perm_of_length_le
      (Nat.le_of_eq h.symm)
  exact hperm.nodup_iff.mp (nodup_eraseDups l)

end Distinct

end CiteMarkup
