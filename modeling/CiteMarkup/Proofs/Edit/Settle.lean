import CiteMarkup.Edit
import CiteMarkup.Proofs.Order.Stable
import CiteMarkup.Proofs.Text.Slice
/-!
# Which edits are carried out, and in which order

Of the edits that are planned for one stretch the last one counts.  So a settled edit was
planned, each stretch has one settled edit at most (`eq_of_span_eq`), and an edit that is
repeated for its stretch by every later plan is settled (`mem_settle_append`).  Edits that are
pairwise apart stand one behind the other once they are settled (`pairwise_settle`).
-/

namespace CiteMarkup
namespace Edit

variable {edits : List Edit} {e f : Edit}

theorem eq_mk {s : Span} {w : Text} (hspan : e.span = s) (htext : e.text = w) : e = ⟨s, w⟩ := by
  rw [← hspan, ← htext]

/-! ## 1. The last plan for a stretch -/

theorem mem_plan {acc : List Edit} {e f : Edit} :
    f ∈ plan acc e ↔ f = e ∨ f ∈ acc ∧ f.span ≠ e.span := by
  simp [plan, or_comm]

theorem foldl_plan_subset : ∀ {l acc : List Edit} {e : Edit}, e ∈ l.foldl plan acc →
    e ∈ acc ∨ e ∈ l
  | [], acc, e, h => .inl h
  | f :: l, acc, e, h => by
    rw [List.foldl_cons] at h
    rcases foldl_plan_subset h with h | h
    · rcases mem_plan.mp h with rfl | ⟨h, -⟩
      · exact .inr List.mem_cons_self
      · exact .inl h
    · exact .inr (List.mem_cons_of_mem _ h)

/-- What is planned stays planned as long as only the same is planned for its stretch. -/
theorem mem_foldl_plan_of_mem : ∀ {l acc : List Edit} {e : Edit}, e ∈ acc →
    (∀ f ∈ l, f.span = e.span → f = e) → e ∈ l.foldl plan acc
  | [], acc, e, h, _ => h
  | f :: l, acc, e, h, hl => by
    rw [List.foldl_cons]
    refine mem_foldl_plan_of_mem (mem_plan.mpr ?_) fun g hg => hl g (List.mem_cons_of_mem _ hg)
    by_cases hs : f.span = e.span
    · exact .inl (hl f List.mem_cons_self hs).symm
    · exact .inr ⟨h, Ne.symm hs⟩

theorem mem_foldl_plan : ∀ {l acc : List Edit} {e : Edit}, e ∈ l →
    (∀ f ∈ l, f.span = e.span → f = e) → e ∈ l.foldl plan acc
  | f :: l, acc, e, h, hl => by
    rw [List.foldl_cons]
    have hrest : ∀ g ∈ l, g.span = e.span → g = e := fun g hg => hl g (List.mem_cons_of_mem _ hg)
    rcases List.mem_cons.mp h with rfl | h
    · exact mem_foldl_plan_of_mem (mem_plan.mpr (.inl rfl)) hrest
    · exact mem_foldl_plan h hrest

theorem pairwise_foldl_plan : ∀ {l acc : List Edit},
    (acc.Pairwise fun a b => a.span ≠ b.span) →
    (l.foldl plan acc).Pairwise fun a b => a.span ≠ b.span
  | [], acc, h => h
  | e :: l, acc, h => by
    rw [List.foldl_cons]
    refine pairwise_foldl_plan ?_
    rw [plan, List.pairwise_append]
    refine ⟨h.filter _, List.pairwise_singleton _ _, fun a ha b hb => ?_⟩
    obtain rfl := List.mem_singleton.mp hb
    simpa using (List.mem_filter.mp ha).2

/-! ## 2. Settled edits -/

theorem mem_of_mem_settle (h : e ∈ settle edits) : e ∈ edits := by
  rw [settle, mem_sortStable] at h
  exact (foldl_plan_subset h).resolve_left fun h => by cases h

/-- An edit that is planned, and for whose stretch nothing else is planned after it, is
settled. -/
theorem mem_settle_append {earlier later : List Edit} (h : e ∈ later)
    (hl : ∀ f ∈ later, f.span = e.span → f = e) : e ∈ settle (earlier ++ later) := by
  rw [settle, mem_sortStable, List.foldl_append]
  exact mem_foldl_plan h hl

theorem mem_settle (h : e ∈ edits) (hl : ∀ f ∈ edits, f.span = e.span → f = e) :
    e ∈ settle edits :=
  @mem_settle_append e [] edits h hl

/-- Settled edits are for different stretches and in order. -/
theorem pairwise_settle_before (edits : List Edit) :
    (settle edits).Pairwise fun a b => a.span ≠ b.span ∧ before a b = true := by
  have hne : (settle edits).Pairwise fun a b => a.span ≠ b.span := by
    rw [settle, (sortStable_perm _ _).pairwise_iff fun hab => Ne.symm hab]
    exact pairwise_foldl_plan List.Pairwise.nil
  refine hne.and (pairwise_sortStable ?_ ?_ _)
  · intro a b
    simp only [before, Bool.or_eq_true, Bool.and_eq_true, decide_eq_true_eq]
    omega
  · intro a b c
    simp only [before, Bool.or_eq_true, Bool.and_eq_true, decide_eq_true_eq]
    omega

/-- Each stretch has one settled edit at most. -/
theorem eq_of_span_eq (he : e ∈ settle edits) (hf : f ∈ settle edits) (h : e.span = f.span) :
    e = f := by
  have hR := List.Pairwise.forall_of_forall_of_flip (R := fun a b : Edit => a = b ∨ a.span ≠ b.span)
    (fun _ _ => .inl rfl) ((pairwise_settle_before edits).imp fun hab => .inr hab.1)
    ((pairwise_settle_before edits).imp fun hab => .inr (Ne.symm hab.1)) he hf
  exact hR.resolve_right fun hne => hne h

/-- **Settled edits stand one behind the other**, except for pairs that are related in some
other way, if all planned ones are for one stretch, apart, or so related. -/
theorem pairwise_settle {related : Edit → Edit → Prop}
    (h : ∀ e ∈ edits, ∀ f ∈ edits, e.span = f.span ∨ e.span.Apart f.span ∨ related e f) :
    (settle edits).Pairwise fun a b => a.span.stop ≤ b.span.start ∨ related a b := by
  refine (pairwise_settle_before edits).imp_of_mem fun {a b} ha hb hab => ?_
  obtain ⟨hne, hbefore⟩ := hab
  rcases h a (mem_of_mem_settle ha) b (mem_of_mem_settle hb) with hspan | (hle | hle) | hrel
  · exact absurd hspan hne
  · exact .inl hle
  · -- `b` can end before `a` begins only if it is empty and both begin at one place
    left
    simp only [before, Bool.or_eq_true, Bool.and_eq_true, decide_eq_true_eq] at hbefore
    have := a.span.ordered
    have := b.span.ordered
    omega
  · exact .inr hrel

end Edit
end CiteMarkup
