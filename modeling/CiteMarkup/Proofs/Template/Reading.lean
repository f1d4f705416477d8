import CiteMarkup.Proofs.Template.Params
/-!
# What is open behind a text

A separator counts where no bracket is open, so whether one counts depends on what is open behind
the text in front of it (`stateAfter`).  A character that neither opens nor closes anything cuts the
reading in two (`stateAfter_append_cons`), and a text is cut where a separator stands with nothing
open in front of it, and nowhere else (`exists_of_pieceLengthsFrom`).

The brackets of a parameter text and those of a single parameter are told apart by the state that
is kept, so all of this is said of any state.
-/

namespace CiteMarkup

/-- The brackets of both kinds. -/
def brackets : List Char := ['{', '}', '[', ']']

/-! ## 1. Reading brackets -/

section Reading

variable {σ : Type} (pair? : σ → Char → Char → Option σ) (outside : σ → Bool) (sep : Char)

/-- What is open behind a text; none if a separator in it counts, or if it ends within a pair. -/
def stateAfter : (inPair : Bool) → σ → Text → Option σ
  | false, s, [] => some s
  | true, _, [] => none
  | true, s, _ :: r => stateAfter false s r
  | false, s, c :: r =>
    match r.head?.bind (pair? s c) with
    | some s' => stateAfter true s' r
    | none => if c = sep && outside s then none else stateAfter false s r

/-- A character that makes no pair, whatever stands beside it. -/
def IsNeutral (c : Char) : Prop := ∀ (s : σ) (d : Char), pair? s c d = none ∧ pair? s d c = none

variable {pair? outside sep} {b : Bool} {s s' : σ} {c : Char} {t u v w : Text}

theorem IsNeutral.bind_eq_none (hc : IsNeutral pair? c) (s : σ) (r : Text) :
    r.head?.bind (pair? s c) = none := by
  cases r with
  | nil => rfl
  | cons d r => exact (hc s d).1

/-- A neutral character makes no pair with the last character in front of it. -/
theorem IsNeutral.head_bind (hc : IsNeutral pair? c) (s : σ) (d : Char) (u v : Text) :
    (u ++ c :: v).head?.bind (pair? s d) = u.head?.bind (pair? s d) := by
  cases u with
  | nil => exact (hc s d).2
  | cons e r => rfl

/-- **A neutral character cuts the reading in two.** -/
theorem stateAfter_append_cons (hc : IsNeutral pair? c) (hu : b = true → u ≠ []) (v : Text) :
    stateAfter pair? outside sep b s (u ++ c :: v) =
      (stateAfter pair? outside sep b s u).bind fun s' =>
        if c = sep && outside s' then none else stateAfter pair? outside sep false s' v := by
  induction u generalizing b s with
  | nil =>
    obtain rfl : b = false := by simpa using hu
    simp only [List.nil_append, stateAfter, hc.bind_eq_none, Option.bind_some]
  | cons d r ih =>
    cases b with
    | true =>
      rw [List.cons_append, stateAfter, stateAfter]
      exact ih (by simp)
    | false =>
      rw [List.cons_append, stateAfter, stateAfter, hc.head_bind]
      split
      · rename_i s' hs'
        refine ih fun _ hnil => ?_
        rw [hnil] at hs'
        cases hs'
      · split
        · rfl
        · exact ih (by simp)

/-- Neutral characters in front of a text do not matter. -/
theorem stateAfter_neutral_append (hw : ∀ c ∈ w, IsNeutral pair? c ∧ c ≠ sep) (s : σ) (v : Text) :
    stateAfter pair? outside sep false s (w ++ v) = stateAfter pair? outside sep false s v := by
  induction w with
  | nil => rfl
  | cons c w ih =>
    obtain ⟨hc, hsep⟩ := hw c List.mem_cons_self
    rw [List.cons_append, stateAfter, hc.bind_eq_none,
      ← ih fun d hd => hw d (List.mem_cons_of_mem _ hd)]
    simp [hsep]

/-- **Neutral characters between two texts** only keep them apart. -/
theorem stateAfter_append_neutral (hw : ∀ c ∈ w, IsNeutral pair? c ∧ c ≠ sep) (hne : w ≠ [])
    (s : σ) (u v : Text) :
    stateAfter pair? outside sep false s (u ++ (w ++ v)) =
      (stateAfter pair? outside sep false s u).bind fun s' =>
        stateAfter pair? outside sep false s' v := by
  obtain ⟨c, w, rfl⟩ := List.exists_cons_of_ne_nil hne
  obtain ⟨hc, hsep⟩ := hw c List.mem_cons_self
  rw [List.cons_append, stateAfter_append_cons hc (by simp)]
  congr 1
  funext s'
  rw [stateAfter_neutral_append fun d hd => hw d (List.mem_cons_of_mem _ hd)]
  simp [hsep]

/-- Neutral characters behind a text do not matter. -/
theorem stateAfter_append_end (hw : ∀ c ∈ w, IsNeutral pair? c ∧ c ≠ sep) (s : σ) (u : Text) :
    stateAfter pair? outside sep false s (u ++ w) = stateAfter pair? outside sep false s u := by
  by_cases hne : w = []
  · rw [hne, List.append_nil]
  · have happend : stateAfter pair? outside sep false s (u ++ (w ++ [])) = _ :=
      stateAfter_append_neutral hw hne s u []
    rw [List.append_nil] at happend
    rw [happend]
    cases stateAfter pair? outside sep false s u <;> rfl

/-! ## 2. Pieces -/

/-- A text in which no separator counts is one piece. -/
theorem pieceLengthsFrom_of_stateAfter
    (h : stateAfter pair? outside sep b s t = some s') (n : Nat) :
    pieceLengthsFrom pair? outside sep n b s t = [n + t.length] := by
  induction t generalizing n b s with
  | nil => cases b <;> rfl
  | cons c r ih =>
    have hlength : n + 1 + r.length = n + (c :: r).length := by
      rw [List.length_cons]
      omega
    cases b with
    | true =>
      rw [stateAfter] at h
      rw [pieceLengthsFrom, ih h, hlength]
    | false =>
      rw [stateAfter] at h
      rw [pieceLengthsFrom]
      cases hs₁ : r.head?.bind (pair? s c) with
      | some s₁ =>
        simp only [hs₁] at h ⊢
        rw [ih h, hlength]
      | none =>
        simp only [hs₁] at h ⊢
        split at h
        · cases h
        · rename_i hsep
          rw [if_neg hsep, ih h, hlength]

/-- In front of a neutral character a text in which no separator counts is read by itself. -/
theorem pieceLengthsFrom_append_cons (hc : IsNeutral pair? c)
    (h : stateAfter pair? outside sep b s u = some s') (n : Nat) (v : Text) :
    pieceLengthsFrom pair? outside sep n b s (u ++ c :: v) =
      pieceLengthsFrom pair? outside sep (n + u.length) false s' (c :: v) := by
  induction u generalizing n b s with
  | nil =>
    cases b with
    | true => cases h
    | false =>
      obtain rfl := Option.some.inj h
      rfl
  | cons d r ih =>
    have hlength : n + 1 + r.length = n + (d :: r).length := by
      rw [List.length_cons]
      omega
    cases b with
    | true =>
      rw [stateAfter] at h
      rw [List.cons_append, pieceLengthsFrom, ih h, hlength]
    | false =>
      rw [stateAfter] at h
      rw [List.cons_append, pieceLengthsFrom, hc.head_bind]
      cases hs₁ : r.head?.bind (pair? s d) with
      | some s₁ =>
        simp only [hs₁] at h ⊢
        rw [ih h, hlength]
      | none =>
        simp only [hs₁] at h ⊢
        split at h
        · cases h
        · rename_i hno
          rw [if_neg hno, ih h, hlength]

/-- A text in front of a separator is the first piece if nothing is open at its end, and else the
piece goes on behind the separator. -/
theorem pieceLengthsFrom_append_sep (hsep : IsNeutral pair? sep)
    (h : stateAfter pair? outside sep b s u = some s') (n : Nat) (v : Text) :
    pieceLengthsFrom pair? outside sep n b s (u ++ sep :: v) =
      if outside s' then (n + u.length) :: pieceLengthsFrom pair? outside sep 0 false s' v
      else pieceLengthsFrom pair? outside sep (n + u.length + 1) false s' v := by
  rw [pieceLengthsFrom_append_cons hsep h, pieceLengthsFrom, hsep.bind_eq_none]
  cases outside s' <;> simp

/-- **A text is cut at a separator with nothing open in front of it**, or it is one piece. -/
theorem exists_of_pieceLengthsFrom {k n : Nat} {ks : List Nat} (hb : b = true → t ≠ [])
    (h : pieceLengthsFrom pair? outside sep n b s t = k :: ks) :
    ∃ u s', stateAfter pair? outside sep b s u = some s' ∧ k = n + u.length ∧
      (ks = [] ∧ t = u ∨ ∃ v, t = u ++ sep :: v ∧ outside s' = true ∧
        pieceLengthsFrom pair? outside sep 0 false s' v = ks) := by
  induction t generalizing n b s with
  | nil =>
    obtain rfl : b = false := by simpa using hb
    obtain ⟨rfl, rfl⟩ := List.cons.inj h
    exact ⟨[], s, rfl, rfl, .inl ⟨rfl, rfl⟩⟩
  | cons c r ih =>
    -- the first piece goes on in the rest, which is read in another way
    have later : ∀ {b' : Bool} {s₁ : σ}, (b' = true → r ≠ []) →
        (∀ u : Text, u.head? = r.head? ∨ u = [] ∧ b' = false →
          stateAfter pair? outside sep b s (c :: u) = stateAfter pair? outside sep b' s₁ u) →
        pieceLengthsFrom pair? outside sep (n + 1) b' s₁ r = k :: ks →
        ∃ u s', stateAfter pair? outside sep b s u = some s' ∧ k = n + u.length ∧
          (ks = [] ∧ c :: r = u ∨ ∃ v, c :: r = u ++ sep :: v ∧ outside s' = true ∧
            pieceLengthsFrom pair? outside sep 0 false s' v = ks) := by
      intro b' s₁ hb' hread hr
      obtain ⟨u, s', hu, hk, hrest⟩ := ih hb' hr
      have hhead : u.head? = r.head? ∨ u = [] ∧ b' = false := by
        cases u with
        | nil =>
          cases b' with
          | true => cases hu
          | false => exact .inr ⟨rfl, rfl⟩
        | cons d u =>
          rcases hrest with ⟨-, rfl⟩ | ⟨v, rfl, -⟩
          · exact .inl rfl
          · exact .inl rfl
      refine ⟨c :: u, s', (hread u hhead).trans hu, by rw [hk, List.length_cons]; omega, ?_⟩
      rcases hrest with ⟨rfl, rfl⟩ | ⟨v, rfl, hout, hv⟩
      · exact .inl ⟨rfl, rfl⟩
      · exact .inr ⟨v, rfl, hout, hv⟩
    cases b with
    | true =>
      rw [pieceLengthsFrom] at h
      exact later (by simp) (fun u _ => rfl) h
    | false =>
      rw [pieceLengthsFrom] at h
      split at h
      · rename_i s₁ hs₁
        refine later (fun _ hnil => ?_) (fun u hu => ?_) h
        · rw [hnil] at hs₁
          cases hs₁
        · rw [stateAfter, hu.resolve_right (by simp), hs₁]
      · rename_i hs₁
        split at h
        · rename_i hsep
          simp only [Bool.and_eq_true, decide_eq_true_eq] at hsep
          obtain ⟨rfl, hks⟩ := List.cons.inj h
          obtain ⟨rfl, hout⟩ := hsep
          exact ⟨[], s, rfl, rfl, .inr ⟨r, rfl, hout, hks⟩⟩
        · rename_i hsep
          refine later (by simp) (fun u hu => ?_) h
          have hnone : u.head?.bind (pair? s c) = none := by
            rcases hu with hu | ⟨rfl, -⟩
            · rw [hu, hs₁]
            · rfl
          rw [stateAfter, hnone]
          exact if_neg hsep

end Reading

section Separator

variable {σ : Type} (pair? : σ → Char → Char → Option σ) (outside : σ → Bool) (sep : Char)

theorem pieceLengthsFrom_ne_nil (t : Text) (n : Nat) (b : Bool) (s : σ) :
    pieceLengthsFrom pair? outside sep n b s t ≠ [] := by
  intro h
  have hsum := sum_pieceLengthsFrom pair? outside sep t n b s
  rw [h] at hsum
  simp at hsum

/-- A text without the separator is one piece. -/
theorem pieceLengthsFrom_of_not_mem {t : Text} (h : sep ∉ t) (n : Nat) (b : Bool) (s : σ) :
    pieceLengthsFrom pair? outside sep n b s t = [n + t.length] := by
  induction t generalizing n b s with
  | nil => rfl
  | cons c r ih =>
    obtain ⟨hc, hr⟩ := not_or.mp (List.mem_cons.not.mp h)
    have hlength : n + 1 + r.length = n + (c :: r).length := by
      rw [List.length_cons]
      omega
    cases b with
    | true => rw [pieceLengthsFrom, ih hr, hlength]
    | false =>
      rw [pieceLengthsFrom]
      split
      · rw [ih hr, hlength]
      · rw [if_neg (by simp [Ne.symm hc]), ih hr, hlength]

end Separator
end CiteMarkup
