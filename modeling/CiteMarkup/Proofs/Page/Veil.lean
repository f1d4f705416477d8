import CiteMarkup.Page
import CiteMarkup.Proofs.Text.Slice
/-!
# What the veil leaves visible

The readers see a page through its veil.  At each offset they see the character that is
written there or the veil itself (`getElem?_veil`), so a mark that they find by its brackets
really has those brackets on the page (`Page.isVeiled_ofText`).
-/

namespace CiteMarkup

/-! ## 1. Character by character -/

theorem getElem?_veilFrom {c : Char} : ∀ (t : Text) (hidden i : Nat),
    (veilFrom hidden t)[i]? = some c → t[i]? = some c ∨ c = veil
  | [], hidden, i, h => by cases hidden <;> simp [veilFrom] at h
  | d :: r, hidden, i, h => by
    -- the first character shows itself or the veil, whatever comes before it
    have first : ∀ e, e = d ∨ e = veiled d → some e = some c → d = c ∨ c = veil := by
      rintro e (rfl | rfl) he
      · exact .inl (by simpa using he)
      · unfold veiled at he
        split at he
        · exact .inl (by simpa using he)
        · exact .inr (by simpa using he.symm)
    have shown : ∃ e n, veilFrom hidden (d :: r) = e :: veilFrom n r ∧ (e = d ∨ e = veiled d) := by
      cases hidden with
      | succ n => exact ⟨_, n, rfl, .inr rfl⟩
      | zero =>
        cases hp : Protected.length? (d :: r) with
        | some n => exact ⟨_, n - 1, by simp only [veilFrom, hp], .inr rfl⟩
        | none => exact ⟨_, 0, by simp only [veilFrom, hp], .inl rfl⟩
    obtain ⟨e, n, hv, he⟩ := shown
    rw [hv] at h
    cases i with
    | zero => simpa using first e he (by simpa using h)
    | succ i => simpa using getElem?_veilFrom r n i (by simpa using h)

/-- **The readers see what is written, or the veil.** -/
theorem getElem?_veil {t : Text} {i : Nat} {c : Char} (h : t.veil[i]? = some c) :
    t[i]? = some c ∨ c = veil :=
  getElem?_veilFrom t 0 i h

/-! ## 2. Pages -/

namespace Page

/-- Wherever the page does not show what is written, it shows the veil. -/
def IsVeiled (p : Page) : Prop :=
  ∀ {i : Nat} {c : Char}, p.seen[i]? = some c → c ≠ veil → p.raw[i]? = some c

theorem isVeiled_ofText (t : Text) : (ofText t).IsVeiled := fun h hc =>
  (getElem?_veil h).resolve_right hc

@[simp] theorem raw_slice (p : Page) (a b : Nat) : (p.slice a b).raw = p.raw.slice a b := rfl

end Page
end CiteMarkup
