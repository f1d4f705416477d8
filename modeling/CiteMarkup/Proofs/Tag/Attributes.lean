import CiteMarkup.Proofs.Text.Scan
import CiteMarkup.Proofs.Text.Value
import CiteMarkup.Tag.Attribute
/-!
# What attributes say

The value of an attribute has no blanks around it, and one that is asked for is not empty
(`Attributes.isValue_of_value?`).
-/

namespace CiteMarkup
namespace Attributes

variable {t k v : Text}

theorem mem_of_mem_firstOfEach {x : Text × Text} {seen : List Text} {l : List (Text × Text)}
    (h : x ∈ firstOfEach seen l) : x ∈ l := by
  induction l generalizing seen with
  | nil => cases h
  | cons a l ih =>
    rw [firstOfEach] at h
    split at h
    · exact List.mem_cons_of_mem _ (ih h)
    · rcases List.mem_cons.mp h with rfl | h
      · exact List.mem_cons_self
      · exact List.mem_cons_of_mem _ (ih h)

theorem trimmed_of_mem (h : (k, v) ∈ ofText t) : v.Trimmed := by
  obtain ⟨f, hf, heq⟩ := List.mem_map.mp (mem_of_mem_firstOfEach h)
  obtain ⟨i, n, b, -, hr, -⟩ := exists_of_mem_scan hf
  rw [heq] at hr
  unfold rule at hr
  split at hr
  · cases hr
  · split at hr
    · simp only [Verdict.found.injEq, Prod.mk.injEq] at hr
      rw [← hr.2.2]
      exact Text.trimmed_trim _
    · cases hr

/-- **The value of an attribute is a value**: neither empty nor with blanks around it. -/
theorem isValue_of_value? (h : (ofText t).value? k = some v) : v ≠ [] ∧ v.Trimmed := by
  obtain ⟨w, hlookup, hw⟩ := Option.bind_eq_some_iff.mp h
  obtain rfl := eq_of_nonempty? hw
  obtain ⟨before, after, heq, -⟩ := List.lookup_eq_some_iff.mp hlookup
  have hmem : (k, w) ∈ ofText t := by
    rw [heq]
    simp
  refine ⟨?_, trimmed_of_mem hmem⟩
  rintro rfl
  cases hw

end Attributes
end CiteMarkup
