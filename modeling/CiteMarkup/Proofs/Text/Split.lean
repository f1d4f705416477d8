import CiteMarkup.Proofs.Text.Scan
import Mathlib.Data.List.Basic
/-!
# Texts that are read by themselves

A reading goes from left to right, but what a rule says at a place can depend on all that
stands behind it.  A text splits off (`Splits`) if the reading of it never does: whatever
stands behind the text, the findings are those of the text and those of what stands behind.
Such texts can be put one after the other (`Splits.append`) and taken apart again
(`Splits.cancel`).
-/

namespace CiteMarkup

variable {α : Type} {rule : Text → Verdict α} {u v w : Text}

/-! ## 1. Readings from another place -/

/-- The finding, `n` characters further on. -/
def Found.shift (n : Nat) (f : Found α) : Found α := ⟨f.span.shift n, f.value⟩

@[simp] theorem Span.shift_shift (m n : Nat) (s : Span) :
    (s.shift n).shift m = s.shift (m + n) := by
  simp [Span.shift, Nat.add_assoc]

@[simp] theorem Span.shift_zero (s : Span) : s.shift 0 = s := by simp [Span.shift]

@[simp] theorem Found.shift_shift (m n : Nat) (f : Found α) :
    (f.shift n).shift m = f.shift (m + n) := by
  simp [Found.shift]

@[simp] theorem Found.shift_zero (f : Found α) : f.shift 0 = f := by simp [Found.shift]

theorem Span.shift_injective (n : Nat) : Function.Injective (Span.shift n) := by
  intro s t h
  obtain ⟨a, b, _⟩ := s
  obtain ⟨c, d, _⟩ := t
  simpa [Span.shift] using h

theorem Found.shift_injective (n : Nat) : Function.Injective (Found.shift (α := α) n) := by
  intro f g h
  obtain ⟨s, a⟩ := f
  obtain ⟨t, b⟩ := g
  obtain ⟨hspan, rfl⟩ : s.shift n = t.shift n ∧ a = b := by simpa [Found.shift] using h
  rw [Span.shift_injective n hspan]

/-- A rule that does not ask for the character before gives the same findings further on. -/
theorem scanFrom_shift (n offset skip : Nat) (b b' : Option Char) (t : Text) :
    scanFrom (fun _ => rule) (n + offset) skip b t =
      (scanFrom (fun _ => rule) offset skip b' t).map (Found.shift n) := by
  induction t generalizing offset skip b b' with
  | nil => cases skip <;> simp [scanFrom]
  | cons c r ih =>
    cases skip with
    | succ skip => rw [scanFrom, scanFrom, ← ih, Nat.add_assoc]
    | zero =>
      rw [scanFrom, scanFrom]
      cases rule (c :: r) with
      | pass => rw [← ih, Nat.add_assoc]
      | jump k => rw [← ih, Nat.add_assoc]
      | found k a =>
        rw [List.map_cons, ← ih _ _ (some c), Nat.add_assoc, Found.shift]
        simp [Span.shift, Span.ofLength, Nat.add_assoc]

/-- What is covered already is passed over. -/
theorem scanFrom_covered (offset : Nat) (b : Option Char) (u t : Text) :
    scanFrom (fun _ => rule) offset u.length b (u ++ t) =
      (scan (fun _ => rule) t).map (Found.shift (offset + u.length)) := by
  induction u generalizing offset b with
  | nil => exact scanFrom_shift offset 0 0 b none t
  | cons c u ih =>
    rw [List.length_cons, List.cons_append, scanFrom, ih]
    congr 2
    omega

/-! ## 2. One verdict -/

/-- How far a verdict leads. -/
def Verdict.length : Verdict α → Nat
  | .pass => 1
  | .jump n | .found n _ => n

/-- What a verdict reports, for a text that begins at 0. -/
def Verdict.findings : Verdict α → List (Found α)
  | .found n a => [⟨Span.ofLength 0 n, a⟩]
  | _ => []

/-- The reading goes on behind what the first verdict covers. -/
theorem scan_append_of_length (hw : w ≠ []) {t : Text}
    (h : (rule (w ++ t)).length = w.length) :
    scan (fun _ => rule) (w ++ t) =
      (rule (w ++ t)).findings ++ (scan (fun _ => rule) t).map (Found.shift w.length) := by
  cases w with
  | nil => exact absurd rfl hw
  | cons c w =>
    have hrest : scanFrom (fun _ => rule) 1 w.length (some c) (w ++ t) = _ :=
      scanFrom_covered 1 (some c) w t
    have hone : 1 + w.length = (c :: w).length := by rw [List.length_cons, Nat.add_comm]
    rw [hone] at hrest
    rw [List.cons_append] at h ⊢
    rw [scan, scanFrom]
    cases hrule : rule (c :: (w ++ t)) with
    | pass =>
      rw [hrule] at h
      obtain rfl : w = [] := by simpa [Verdict.length] using h
      simpa [Verdict.findings] using hrest
    | jump n =>
      rw [hrule] at h
      obtain rfl : n = w.length + 1 := by simpa [Verdict.length] using h
      simpa [Verdict.findings] using hrest
    | found n a =>
      rw [hrule] at h
      obtain rfl : n = w.length + 1 := by simpa [Verdict.length] using h
      simpa [Verdict.findings] using hrest

/-! ## 3. Texts that split off -/

/-- Whatever stands behind the text, the rule finds what it finds in the text alone and what
it finds in the rest alone. -/
def Splits (rule : Text → Verdict α) (u : Text) : Prop :=
  ∀ rest, scan (fun _ => rule) (u ++ rest) =
    scan (fun _ => rule) u ++ (scan (fun _ => rule) rest).map (Found.shift u.length)

namespace Splits

theorem nil : Splits rule [] := by
  intro rest
  have hid : Found.shift (α := α) 0 = id := funext Found.shift_zero
  simp [scan, scanFrom, hid]

theorem append (hu : Splits rule u) (hv : Splits rule v) : Splits rule (u ++ v) := by
  intro rest
  rw [List.append_assoc, hu, hu, hv]
  simp [Function.comp_def]

/-- If a text splits off with and without what stands behind it, that splits off as well. -/
theorem cancel (hu : Splits rule u) (huw : Splits rule (u ++ w)) : Splits rule w := by
  intro rest
  have h := huw rest
  rw [List.append_assoc, hu, hu, List.append_assoc] at h
  have h := List.append_cancel_left h
  refine List.map_injective_iff.mpr (Found.shift_injective u.length) ?_
  rw [h]
  simp [Function.comp_def]

/-- A text splits off behind a verdict that does not depend on what stands behind. -/
theorem of_verdict (verdict : Verdict α) (hw : w ≠ []) (hlen : verdict.length = w.length)
    (h : ∀ rest, rule (w ++ (v ++ rest)) = verdict) (hv : Splits rule v) :
    Splits rule (w ++ v) ∧ scan (fun _ => rule) (w ++ v) =
      verdict.findings ++ (scan (fun _ => rule) v).map (Found.shift w.length) := by
  have hall : ∀ rest, scan (fun _ => rule) (w ++ (v ++ rest)) = verdict.findings ++
      (scan (fun _ => rule) (v ++ rest)).map (Found.shift w.length) := by
    intro rest
    rw [scan_append_of_length hw (by rw [h, hlen]), h]
  have hself := hall []
  rw [List.append_nil] at hself
  refine ⟨fun rest => ?_, hself⟩
  rw [List.append_assoc, hall, hself, hv]
  simp [Function.comp_def]

/-- A text in which nothing can begin, whatever stands behind it. -/
theorem of_pass (h : ∀ front back : Text, u = front ++ back → back ≠ [] →
    ∀ rest, rule (back ++ rest) = .pass) :
    Splits rule u ∧ scan (fun _ => rule) u = [] := by
  induction u with
  | nil => exact ⟨nil, rfl⟩
  | cons c u ih =>
    obtain ⟨hsplits, hscan⟩ := ih fun front back heq => h (c :: front) back (by rw [heq]; rfl)
    obtain ⟨hcons, hself⟩ := of_verdict (w := [c]) .pass (by simp) rfl
      (h [] (c :: u) rfl (by simp)) hsplits
    refine ⟨hcons, ?_⟩
    rw [List.singleton_append, hscan] at hself
    exact hself

end Splits
end CiteMarkup
