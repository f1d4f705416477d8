import CiteMarkup.Chain.Expansion
import CiteMarkup.Proofs.Chain.Places
import CiteMarkup.Proofs.Template.Places
/-!
# Where a chain is edited

A chain is edited as a whole, or at the values of its names.  Either way no two of its edits
overlap, and all of them stay inside the chain (`Chain.apart_edits`, `Chain.within_of_mem_edits`).
-/

namespace CiteMarkup
namespace Chain

variable {c : Chain} {useChains : Option Bool} {targets : List Target} {e f : Edit}

/-- The edits to a chain are all for the whole of it, or each for the value of a name. -/
theorem edits_cases (c : Chain) (useChains : Option Bool) (targets : List Target) :
    (∀ e ∈ (c.edits useChains targets).1, e.span = c.template.span) ∨
      ∀ e ∈ (c.edits useChains targets).1,
        ∃ n ∈ c.names, e.span = n.span.shift c.template.paramsStart := by
  unfold edits
  split
  · -- an expansion replaces the chain as a whole
    left
    split
    · simp
    · simp
    · simp
  · simp only [renamingEdits]
    split
    · left
      intro e he
      obtain ⟨t, -, rfl⟩ := List.mem_map.mp he
      rfl
    · right
      intro e he
      obtain ⟨⟨n, name⟩, hn, rfl⟩ := List.mem_map.mp he
      refine ⟨n, ?_, rfl⟩
      obtain ⟨⟨n', t⟩, hz, heq⟩ := List.mem_filterMap.mp hn
      have hmem := (List.of_mem_zip hz).1
      simp only at heq
      split at heq
      · obtain ⟨-, rfl, -⟩ : _ ∧ n' = n ∧ _ := by simpa using heq
        exact hmem
      · cases heq

/-- **The edits to a chain do not overlap.** -/
theorem apart_edits (hc : c.entries = placedEntries c.template.paramText)
    (he : e ∈ (c.edits useChains targets).1) (hf : f ∈ (c.edits useChains targets).1) :
    e.span = f.span ∨ e.span.Apart f.span := by
  rcases edits_cases c useChains targets with h | h
  · exact .inl ((h e he).trans (h f hf).symm)
  · obtain ⟨n, hn, hen⟩ := h e he
    obtain ⟨n', hn', hfn⟩ := h f hf
    have hpair : c.entries.Pairwise fun a b => a.span.stop ≤ b.span.start := by
      rw [hc]
      exact (pairwise_placedEntries _).imp Nat.le_of_lt
    rw [hen, hfn]
    rcases Span.apart_of_pairwise hpair (List.mem_filter.mp hn).1 (List.mem_filter.mp hn').1 with
      rfl | hle | hle
    · exact .inl rfl
    · exact .inr (.inl (Nat.add_le_add_left hle _))
    · exact .inr (.inr (Nat.add_le_add_left hle _))

/-- **The edits to a chain stay inside it.** -/
theorem within_of_mem_edits {p : Page} (hc : c.entries = placedEntries c.template.paramText)
    (hi : p.IsInvocation c.template) (he : e ∈ (c.edits useChains targets).1) :
    e.span.Within c.template.span := by
  rcases edits_cases c useChains targets with h | h
  · rw [h e he]
    exact Span.Within.refl _
  · obtain ⟨n, hn, hen⟩ := h e he
    have hmem := (List.mem_filter.mp hn).1
    rw [hc] at hmem
    have hb := (bounds_of_mem_placedEntries hmem).2
    have := hi.room
    have := hi.stop_eq
    rw [hen]
    constructor
    · rw [Span.start_shift]
      omega
    · rw [Span.stop_shift]
      omega

end Chain
end CiteMarkup
