import CiteMarkup.Proofs.Text.Slice
import CiteMarkup.Text.Scan
import Mathlib.Data.List.Pairwise
/-!
# What a reading finds, and where

A rule reports how many characters it has covered.  If that number is never zero and never
more than there are (`Measured`), then everything found lies in the text, is what the rule
says at its place (`exists_of_mem_scan`), and stands behind everything found before it
(`pairwise_scan`).
-/

namespace CiteMarkup

variable {α : Type} {rule : Option Char → Text → Verdict α}

/-- What the rule finds has at least one character, and no more than there are. -/
def Measured (rule : Option Char → Text → Verdict α) : Prop :=
  ∀ ⦃before : Option Char⦄ ⦃t : Text⦄ ⦃n : Nat⦄ ⦃a : α⦄,
    rule before t = .found n a → 0 < n ∧ n ≤ t.length

/-! ## 1. Each finding -/

/-- A finding is what the rule says about the text from its place on, and it begins behind
what is covered already. -/
theorem exists_of_mem_scanFrom : ∀ {t : Text} {offset skip : Nat} {before : Option Char}
    {f : Found α}, f ∈ scanFrom rule offset skip before t →
    ∃ (i n : Nat) (b : Option Char), skip ≤ i ∧ i < t.length ∧
      rule b (t.drop i) = .found n f.value ∧ f.span = Span.ofLength (offset + i) n
  | [], offset, skip, before, f, h => by cases skip <;> simp [scanFrom] at h
  | c :: r, offset, skip + 1, before, f, h => by
    rw [scanFrom] at h
    obtain ⟨i, n, b, hs, hl, hr, hf⟩ := exists_of_mem_scanFrom h
    exact ⟨i + 1, n, b, by omega, by simpa using hl, by simpa using hr, by
      rw [hf]; congr 1; omega⟩
  | c :: r, offset, 0, before, f, h => by
    -- whatever the rule says here, the rest is read from the next character on
    have later : ∀ skip, f ∈ scanFrom rule (offset + 1) skip (some c) r →
        ∃ (i n : Nat) (b : Option Char), 0 ≤ i ∧ i < (c :: r).length ∧
          rule b ((c :: r).drop i) = .found n f.value ∧
          f.span = Span.ofLength (offset + i) n := by
      intro skip hm
      obtain ⟨i, n, b, _, hl, hr, hf⟩ := exists_of_mem_scanFrom hm
      exact ⟨i + 1, n, b, by omega, by simpa using hl, by simpa using hr, by
        rw [hf]; congr 1; omega⟩
    rw [scanFrom] at h
    split at h
    · exact later _ h
    · exact later _ h
    · rename_i n a hrule
      rcases List.mem_cons.mp h with rfl | h
      · exact ⟨0, n, before, Nat.le_refl _, by simp, hrule, rfl⟩
      · exact later _ h

/-- **A finding of a reading.**  It lies in the text, and the rule says so at its place. -/
theorem exists_of_mem_scan {t : Text} {offset : Nat} {f : Found α} (h : f ∈ scan rule t offset) :
    ∃ (i n : Nat) (b : Option Char), i < t.length ∧
      rule b (t.drop i) = .found n f.value ∧ f.span = Span.ofLength (offset + i) n := by
  obtain ⟨i, n, b, _, hl, hr, hf⟩ := exists_of_mem_scanFrom h
  exact ⟨i, n, b, hl, hr, hf⟩

/-! ## 2. The order of the findings -/

theorem pairwise_scanFrom (hm : Measured rule) : ∀ (t : Text) (offset skip : Nat)
    (before : Option Char),
    (scanFrom rule offset skip before t).Pairwise fun f g => f.span.stop ≤ g.span.start
  | [], offset, skip, before => by cases skip <;> simp [scanFrom]
  | c :: r, offset, skip + 1, before => by
    rw [scanFrom]
    exact pairwise_scanFrom hm r (offset + 1) skip (some c)
  | c :: r, offset, 0, before => by
    rw [scanFrom]
    split
    · exact pairwise_scanFrom hm r (offset + 1) 0 (some c)
    · exact pairwise_scanFrom hm r (offset + 1) _ (some c)
    · rename_i n a hrule
      refine List.pairwise_cons.mpr ⟨?_, pairwise_scanFrom hm r (offset + 1) _ (some c)⟩
      intro g hg
      obtain ⟨i, k, b, hs, _, _, hf⟩ := exists_of_mem_scanFrom hg
      have hn := (hm hrule).1
      rw [hf]
      simp only [Span.stop_ofLength, Span.start_ofLength]
      omega

/-- **Findings do not overlap.**  Each ends before the next begins. -/
theorem pairwise_scan (hm : Measured rule) (t : Text) (offset : Nat) :
    (scan rule t offset).Pairwise fun f g => f.span.stop ≤ g.span.start :=
  pairwise_scanFrom hm t offset 0 none

/-! ## 3. Nothing is missed -/

/-- What the rule says of a place behind what is covered is found, unless something in front of it
covers the place.  Nothing that the rule passes over may reach beyond the place. -/
theorem exists_mem_scanFrom (hm : Measured rule) {n : Nat} {a : α} : ∀ {t : Text} {i skip : Nat}
    (offset : Nat) (before : Option Char), skip ≤ i →
    (∀ b, rule b (t.drop i) = .found n a) →
    (∀ b j m, j < i → rule b (t.drop j) = .jump m → j + m ≤ i) →
    ∃ f ∈ scanFrom rule offset skip before t, f.span.contains (offset + i) = true
  | [], i, skip, offset, before, _, hfound, _ => by
    have hle := hm (hfound none)
    rw [List.drop_nil, List.length_nil] at hle
    omega
  | c :: r, 0, 0, offset, before, _, hfound, _ => by
    have hrule : rule before (c :: r) = .found n a := hfound before
    rw [scanFrom, hrule]
    have hpos := (hm hrule).1
    refine ⟨_, List.mem_cons_self, Span.contains_iff.mpr ?_⟩
    rw [Span.start_ofLength, Span.stop_ofLength]
    omega
  | c :: r, i + 1, skip, offset, before, hskip, hfound, hjump => by
    -- the place is found in the rest, if nothing at this character covers it
    have later : ∀ skip', skip' ≤ i → ∃ f ∈ scanFrom rule (offset + 1) skip' (some c) r,
        f.span.contains (offset + (i + 1)) = true := fun _ hle => by
      obtain ⟨f, hf, hc⟩ := exists_mem_scanFrom hm (offset + 1) (some c) hle hfound
        fun b j m hj hr => by
          have := hjump b (j + 1) m (by omega) hr
          omega
      exact ⟨f, hf, by rwa [Nat.add_right_comm, Nat.add_assoc] at hc⟩
    cases skip with
    | succ skip =>
      rw [scanFrom]
      exact later skip (by omega)
    | zero =>
      rw [scanFrom]
      split
      · exact later 0 (Nat.zero_le _)
      · rename_i m hr
        have := hjump before 0 m (by omega) hr
        exact later (m - 1) (by omega)
      · rename_i m b hr
        by_cases hle : m ≤ i + 1
        · obtain ⟨f, hf, hc⟩ := later (m - 1) (by omega)
          exact ⟨f, List.mem_cons_of_mem _ hf, hc⟩
        · refine ⟨_, List.mem_cons_self, Span.contains_iff.mpr ?_⟩
          rw [Span.start_ofLength, Span.stop_ofLength]
          omega

/-- **Nothing is missed.**  Where the rule finds something there is a finding, unless an earlier
one covers the place. -/
theorem exists_mem_scan (hm : Measured rule) {t : Text} {i n : Nat} {a : α}
    (hfound : ∀ b, rule b (t.drop i) = .found n a)
    (hjump : ∀ b j m, j < i → rule b (t.drop j) = .jump m → j + m ≤ i) :
    ∃ f ∈ scan rule t, f.span.contains i = true := by
  obtain ⟨f, hf, hc⟩ := exists_mem_scanFrom hm 0 none (Nat.zero_le i) hfound hjump
  exact ⟨f, hf, by rwa [Nat.zero_add] at hc⟩

end CiteMarkup
