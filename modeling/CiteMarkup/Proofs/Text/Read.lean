import CiteMarkup.Text.Keyword
import CiteMarkup.Text.Scan
import Mathlib.Data.List.Basic
/-!
# What a reader takes from a text

The small readers take a word, a part or everything up to an end from a text and give what is
left.  What they take and what they leave is the text they were given.
-/

namespace CiteMarkup

variable {t rest : Text}

/-! ## 1. Words and parts -/

/-- The text is the word, which is given in small letters, in any case. -/
def Spells (word t : Text) : Prop := List.Forall₂ (fun l c => isLetter l c = true) word t

theorem keyword?_iff {word : Text} :
    keyword? word t = some rest ↔ ∃ u, Spells word u ∧ u ++ rest = t := by
  induction word generalizing t with
  | nil =>
    constructor
    · intro h
      exact ⟨[], .nil, (Option.some.inj h).symm⟩
    · rintro ⟨u, hu, rfl⟩
      cases hu
      rfl
  | cons l word ih =>
    cases t with
    | nil =>
      constructor
      · intro h
        cases h
      · rintro ⟨u, hu, h⟩
        cases hu
        cases h
    | cons c r =>
      rw [keyword?]
      constructor
      · intro h
        split at h
        · rename_i hc
          obtain ⟨u, hu, rfl⟩ := ih.mp h
          exact ⟨c :: u, .cons hc hu, rfl⟩
        · cases h
      · rintro ⟨u, hu, h⟩
        cases hu with
        | cons hc hu =>
          obtain ⟨rfl, rfl⟩ := List.cons.inj h
          rw [if_pos hc]
          exact ih.mpr ⟨_, hu, rfl⟩

theorem length_of_keyword? : ∀ {word t rest : Text}, keyword? word t = some rest →
    t.length = word.length + rest.length
  | [], t, rest, h => by
    obtain rfl : t = rest := by simpa [keyword?] using h
    simp
  | w :: ws, [], rest, h => by simp [keyword?] at h
  | w :: ws, c :: r, rest, h => by
    rw [keyword?] at h
    split at h
    · have := length_of_keyword? h
      simp only [List.length_cons]
      omega
    · cases h

theorem suffix_of_keyword? {word : Text} (h : keyword? word t = some rest) : rest <:+ t := by
  induction word generalizing t with
  | nil => exact Option.some.inj h ▸ List.suffix_refl t
  | cons w ws ih =>
    cases t with
    | nil => cases h
    | cons c r =>
      rw [keyword?] at h
      split at h
      · exact (ih h).trans (List.suffix_cons c r)
      · cases h

/-- What stands behind a text that is long enough does not make it begin with another word. -/
theorem keyword?_append {word : Text} (h : word.length ≤ t.length) (rest : Text) :
    keyword? word (t ++ rest) = (keyword? word t).map (· ++ rest) := by
  induction word generalizing t with
  | nil => rfl
  | cons w ws ih =>
    cases t with
    | nil => simp at h
    | cons c r =>
      rw [List.cons_append, keyword?, keyword?]
      split
      · exact ih (by simpa using h)
      · rfl

/-- What is read as a word is made of its letters, in any case. -/
theorem exists_isLetter_of_keyword? {word name : Text} {c : Char}
    (h : keyword? word name = some []) (hc : c ∈ name) :
    ∃ l ∈ word, isLetter l c = true := by
  induction word generalizing name with
  | nil =>
    obtain rfl : name = [] := Option.some.inj h
    cases hc
  | cons l ls ih =>
    cases name with
    | nil => cases hc
    | cons d r =>
      rw [keyword?] at h
      split at h
      · rename_i hd
        rcases List.mem_cons.mp hc with rfl | hc
        · exact ⟨l, List.mem_cons_self, hd⟩
        · obtain ⟨l', hl', hletter⟩ := ih h hc
          exact ⟨l', List.mem_cons_of_mem _ hl', hletter⟩
      · cases h

theorem eq_append_of_after? : ∀ {part t rest : Text}, after? part t = some rest →
    t = part ++ rest
  | [], t, rest, h => by simpa [after?] using h
  | p :: ps, [], rest, h => by simp [after?] at h
  | p :: ps, c :: r, rest, h => by
    rw [after?] at h
    split at h
    · rename_i hpc
      rw [hpc, eq_append_of_after? h, List.cons_append]
    · cases h

theorem after?_append : ∀ (part rest : Text), after? part (part ++ rest) = some rest
  | [], rest => rfl
  | p :: ps, rest => by simp [after?, after?_append ps rest]

theorem toNat_ofNat {n : Nat} (h : n < 0xD800) : (Char.ofNat n).toNat = n := by
  rw [Char.ofNat, dif_pos (.inl h)]
  rfl

/-- The small form of a letter is a letter, so what is none is in small form only itself. -/
theorem eq_of_asciiLower {c d : Char} (h : asciiLower c = d) (hd : d.toNat < 'a'.toNat) :
    c = d := by
  unfold asciiLower at h
  split at h
  · rename_i hc
    simp only [Bool.and_eq_true, decide_eq_true_eq, Char.le_def, UInt32.le_iff_toNat_le] at hc
    have hlo : 65 ≤ c.toNat := hc.1
    have hhi : c.toNat ≤ 90 := hc.2
    have hup : d.toNat = c.toNat + 32 := by rw [← h, toNat_ofNat (by omega)]
    have ha : 'a'.toNat = 97 := rfl
    omega
  · exact h

/-- The bracket of a tag is no letter and has no other form. -/
theorem head_of_keyword? {word : Text} (h : keyword? ('<' :: word) t = some rest) :
    t.head? = some '<' := by
  cases t with
  | nil => simp [keyword?] at h
  | cons c r =>
    rw [keyword?] at h
    split at h
    · rename_i hc
      have hl : asciiLower c = '<' := by simpa [isLetter] using hc
      rw [eq_of_asciiLower hl (by decide), List.head?_cons]
    · cases h

/-- A character that is its own small form, wherever it stands. -/
def IsOwnLower (c : Char) : Prop := c.toNat ≠ 0x130 ∧ c.toNat ≠ 0x3A3 ∧ lowerChar c = c

instance (c : Char) : Decidable (IsOwnLower c) := inferInstanceAs (Decidable (_ ∧ _ ∧ _))

theorem mem_lowerFrom {c : Char} (hc : IsOwnLower c) (h : c ∈ t) (before : Text) :
    c ∈ lowerFrom before t := by
  induction t generalizing before with
  | nil => cases h
  | cons d r ih =>
    rw [lowerFrom, List.mem_append]
    rcases List.mem_cons.mp h with rfl | h
    · left
      rw [lowerAt, if_neg hc.1, if_neg hc.2.1, hc.2.2]
      exact List.mem_singleton_self c
    · exact .inr (ih h _)

/-! ## 2. Everything up to an end -/

/-- What is read up to an end stands in front of it. -/
theorem eq_append_of_until? {stop : Text → Option Text} : ∀ {t body rest : Text},
    until? stop t = some (body, rest) → ∃ close, t = body ++ close ∧ stop close = some rest
  | [], body, rest, h => by
    simp only [until?, Option.map_eq_some_iff, Prod.mk.injEq] at h
    obtain ⟨r, hr, rfl, rfl⟩ := h
    exact ⟨[], rfl, hr⟩
  | c :: r, body, rest, h => by
    rw [until?] at h
    split at h
    · rename_i rest' hs
      obtain ⟨rfl, rfl⟩ : [] = body ∧ rest' = rest := by simpa using h
      exact ⟨c :: r, rfl, hs⟩
    · simp only [Option.map_eq_some_iff, Prod.mk.injEq, Prod.exists] at h
      obtain ⟨b, e, hu, rfl, rfl⟩ := h
      obtain ⟨close, rfl, hs⟩ := eq_append_of_until? hu
      exact ⟨close, rfl, hs⟩

end CiteMarkup
