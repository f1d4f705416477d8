import CiteMarkup.Proofs.Order.Stable
/-!
# First occurrences, put in order

A list without its repetitions keeps the first occurrence of each element.  If what comes first on
a list is followed by the sorted whole of it, then dropping repetitions and sorting gives the
sorted whole again (`sortStable_again`): a sorted list that is read back in parts is sorted into
itself.
-/

namespace CiteMarkup

variable {α β : Type}

/-! ## 1. Sorting what is sorted -/

section Sorted

variable {le : α → α → Bool} {l : List α}

/-- What is in order is not moved. -/
theorem sortStable_of_pairwise (h : l.Pairwise fun a b => le a b = true) :
    sortStable le l = l := by
  rw [sortStable_eq]
  exact h.insertionSort_eq

/-- Without an order nothing is moved. -/
theorem sortStable_true (l : List α) : sortStable (fun _ _ => true) l = l :=
  sortStable_of_pairwise (List.pairwise_of_forall fun _ _ => rfl)

theorem sortStable_map (f : α → β) (le : β → β → Bool) (l : List α) :
    sortStable le (l.map f) = (sortStable (fun a b => le (f a) (f b)) l).map f := by
  have insert : ∀ (x : α) (l : List α), insertStable le (f x) (l.map f) =
      (insertStable (fun a b => le (f a) (f b)) x l).map f := by
    intro x l
    induction l with
    | nil => rfl
    | cons y r ih =>
      rw [List.map_cons, insertStable, insertStable, ih]
      split <;> rfl
  induction l with
  | nil => rfl
  | cons x r ih => rw [List.map_cons, sortStable, sortStable, ih, insert]

variable (total : ∀ a b, le a b ∨ le b a) (trans : ∀ a b c, le a b → le b c → le a c)
include total trans

theorem sortStable_append (l l' : List α) :
    sortStable le (l ++ sortStable le l') = sortStable le (l ++ l') := by
  induction l with
  | nil => exact sortStable_of_pairwise (pairwise_sortStable total trans l')
  | cons x r ih => rw [List.cons_append, List.cons_append, sortStable, sortStable, ih]

end Sorted

/-! ## 2. First occurrences -/

/-- A list without repetitions of which all members are one. -/
theorem eq_singleton_of_nodup {l : List α} {a : α} (hn : l.Nodup) (ha : a ∈ l)
    (hall : ∀ b ∈ l, b = a) : l = [a] := by
  have hreplicate := List.eq_replicate_of_mem hall
  have hpos := List.length_pos_of_mem ha
  rw [hreplicate, List.nodup_replicate] at hn
  rw [hreplicate, show l.length = 1 by omega]
  rfl

section Firsts

variable [BEq α] [LawfulBEq α] {l l' : List α}

theorem eraseDups_of_nodup (h : l.Nodup) : l.eraseDups = l := by
  induction l with
  | nil => rfl
  | cons a r ih =>
    obtain ⟨ha, hr⟩ := List.nodup_cons.mp h
    have hkeep : r.filter (fun b => !b == a) = r :=
      List.filter_eq_self.mpr fun b hb => by
        have hne : b ≠ a := fun heq => ha (heq ▸ hb)
        simpa using hne
    rw [List.eraseDups_cons, hkeep, ih hr]

theorem filter_eraseDups (keep : α → Bool) : ∀ l : List α,
    l.eraseDups.filter keep = (l.filter keep).eraseDups
  | [] => rfl
  | a :: r => by
    have ih := filter_eraseDups keep (r.filter fun b => !b == a)
    rw [List.eraseDups_cons, List.filter_cons, List.filter_cons, ih, List.filter_comm]
    split
    · rw [List.eraseDups_cons]
    · rename_i ha
      -- what is kept is not `a`
      congr 1
      refine List.filter_eq_self.mpr fun b hb => ?_
      have hne : b ≠ a := fun heq => ha (heq ▸ List.of_mem_filter hb)
      simpa using hne
termination_by l => l.length
decreasing_by exact Nat.lt_succ_of_le (List.length_filter_le ..)

/-- What has come before adds nothing. -/
theorem eraseDups_append_of_subset (h : l' ⊆ l) : (l ++ l').eraseDups = l.eraseDups := by
  have hnone : l'.removeAll l = [] := by
    rw [List.removeAll, List.filter_eq_nil_iff]
    intro a ha
    simpa using h ha
  rw [List.eraseDups_append, hnone]
  exact List.append_nil _

/-- **A sorted list that is read back in parts.**  The elements `front` come first, then the
sorted whole, and behind it nothing new: what is read is sorted into the same whole. -/
theorem sortStable_again {le : α → α → Bool} (total : ∀ a b, le a b ∨ le b a)
    (trans : ∀ a b c, le a b → le b c → le a c) {front rest behind : List α}
    (h : behind ⊆ front ++ rest) :
    sortStable le (front ++ (sortStable le (front ++ rest).eraseDups ++ behind)).eraseDups =
      sortStable le (front ++ rest).eraseDups := by
  have hwhole : ∀ a, a ∈ sortStable le (front ++ rest).eraseDups ↔ a ∈ front ++ rest := fun a => by
    rw [mem_sortStable, List.mem_eraseDups]
  have hbehind : behind ⊆ front ++ sortStable le (front ++ rest).eraseDups := fun a ha =>
    List.mem_append_right _ ((hwhole a).mpr (h ha))
  have hnodup : (sortStable le (front ++ rest).eraseDups).Nodup :=
    ((sortStable_perm le _).nodup_iff).mpr (nodup_eraseDups _)
  have hsplit : (front ++ rest).eraseDups =
      front.eraseDups ++ (rest.removeAll front).eraseDups := List.eraseDups_append
  -- without its front the sorted whole is the sorted rest
  have hrest : ((sortStable le (front ++ rest).eraseDups).removeAll front).eraseDups =
      sortStable le (rest.removeAll front).eraseDups := by
    have hnone : (front.eraseDups).filter (fun a => !List.elem a front) = [] :=
      List.filter_eq_nil_iff.mpr fun a ha => by simpa using List.mem_eraseDups.mp ha
    have hall : ((rest.removeAll front).eraseDups).filter (fun a => !List.elem a front) =
        (rest.removeAll front).eraseDups :=
      List.filter_eq_self.mpr fun a ha => (List.mem_filter.mp (List.mem_eraseDups.mp ha)).2
    rw [List.removeAll, eraseDups_of_nodup (hnodup.filter _),
      filter_sortStable total trans, hsplit, List.filter_append, hnone, hall, List.nil_append]
  rw [← List.append_assoc, eraseDups_append_of_subset hbehind, List.eraseDups_append, hrest,
    sortStable_append total trans, hsplit]

end Firsts
end CiteMarkup
