import CiteMarkup.Proofs.Page.Hidden
/-!
# In the middle of a protected part

A text that is read from some place on may begin in the middle of a protected part.  Such a part
still ends with a bracket (`EndsAtBracket`), so whatever has no bracket in it is hidden as a whole
or seen as a whole (`veilFrom_append_of_plain`), and in front of a character that is seen it is seen
(`veilFrom_append_of_seen`).
-/

namespace CiteMarkup

variable {t u w : Text} {hidden : Nat}

/-! ## 1. Cutting at any place -/

/-- Of the characters that are hidden first, the last one is a bracket, or they are all there
are. -/
def EndsAtBracket (hidden : Nat) (t : Text) : Prop :=
  ∀ n, hidden = n + 1 → t.length ≤ hidden ∨ t[n]? = some '>'

theorem EndsAtBracket.zero (t : Text) : EndsAtBracket 0 t := fun n hn => by omega

theorem EndsAtBracket.tail {c : Char} {r : Text} {n : Nat} (h : EndsAtBracket (n + 1) (c :: r)) :
    EndsAtBracket n r := by
  rintro m rfl
  rcases h (m + 1) rfl with hle | hget
  · rw [List.length_cons] at hle
    exact .inl (by omega)
  · exact .inr (by simpa using hget)

/-- The veil over a character, and over what stands behind it. -/
theorem veilFrom_cons {c : Char} {r : Text} (h : EndsAtBracket hidden (c :: r)) :
    ∃ e n, veilFrom hidden (c :: r) = e :: veilFrom n r ∧ (e = c ∨ e = veiled c) ∧
      EndsAtBracket n r := by
  cases hidden with
  | succ n => exact ⟨_, n, rfl, .inr rfl, h.tail⟩
  | zero =>
    cases hp : Protected.length? (c :: r) with
    | none => exact ⟨c, 0, by simp only [veilFrom, hp], .inl rfl, .zero r⟩
    | some n =>
      refine ⟨_, n - 1, by simp only [veilFrom, hp], .inr rfl, fun m hm => ?_⟩
      obtain rfl : n = m + 2 := by omega
      rcases Protected.bracket_of_length? hp with hall | ⟨rest, ⟨front, hfront⟩, hrest⟩
      · rw [List.length_cons] at hall
        exact .inl (by omega)
      · right
        have hlength : front.length = m + 1 := by
          rw [← hfront, List.length_append, List.length_cons] at hrest
          omega
        rw [← List.getElem?_cons_succ (a := c), ← hfront, ← hlength]
        simp

/-- **The veil over a text that is cut anywhere.** -/
theorem exists_veilFrom_append (h : EndsAtBracket hidden (u ++ w)) :
    ∃ u' n, veilFrom hidden (u ++ w) = u' ++ veilFrom n w ∧ u'.length = u.length ∧
      (∀ c ∈ u', c ∈ u ∨ c ∈ u.map veiled) ∧ EndsAtBracket n w := by
  induction u generalizing hidden with
  | nil => exact ⟨[], hidden, rfl, rfl, by simp, h⟩
  | cons c u ih =>
    rw [List.cons_append] at h ⊢
    obtain ⟨e, n, heq, he, hn⟩ := veilFrom_cons h
    obtain ⟨u', m, hu, hlength, hmem, hm⟩ := ih hn
    refine ⟨e :: u', m, ?_, by rw [List.length_cons, List.length_cons, hlength], ?_, hm⟩
    · rw [heq, hu]
      rfl
    · intro d hd
      rcases List.mem_cons.mp hd with rfl | hd
      · rcases he with rfl | rfl
        · exact .inl List.mem_cons_self
        · exact .inr List.mem_cons_self
      · exact (hmem d hd).imp (List.mem_cons_of_mem _) (List.mem_cons_of_mem _)

/-! ## 2. Without brackets -/

/-- What is hidden first is hidden. -/
theorem veilFrom_append_of_le {n : Nat} (h : u.length ≤ n) (w : Text) :
    veilFrom n (u ++ w) = u.map veiled ++ veilFrom (n - u.length) w := by
  induction u generalizing n with
  | nil => rfl
  | cons c u ih =>
    obtain ⟨n, rfl⟩ : ∃ m, n = m + 1 := ⟨n - 1, by rw [List.length_cons] at h; omega⟩
    rw [List.cons_append, veilFrom, ih (Nat.le_of_succ_le_succ h), List.length_cons,
      Nat.add_sub_add_right]
    rfl

theorem EndsAtBracket.drop (h : EndsAtBracket hidden (u ++ w)) :
    EndsAtBracket (hidden - u.length) w := by
  induction u generalizing hidden with
  | nil => exact h
  | cons c u ih =>
    cases hidden with
    | zero =>
      rw [Nat.zero_sub]
      exact .zero w
    | succ n =>
      rw [List.length_cons, Nat.add_sub_add_right]
      exact ih h.tail

/-- **What has no bracket in it is seen as a whole or hidden as a whole**, and what hides it goes
on behind it. -/
theorem veilFrom_append_of_plain (hplain : '<' ∉ u ∧ '>' ∉ u) (hw : w ≠ [])
    (h : EndsAtBracket hidden (u ++ w)) :
    veilFrom hidden (u ++ w) = u ++ w.veil ∨
      ∃ n, veilFrom hidden (u ++ w) = u.map veiled ++ veilFrom (n + 1) w ∧
        EndsAtBracket (n + 1) w := by
  cases hidden with
  | zero => exact .inl (veil_append_of_untagged hplain.1 w)
  | succ m =>
    have hlt : u.length < m + 1 := by
      rcases h m rfl with hall | hget
      · have := List.length_pos_of_ne_nil hw
        rw [List.length_append] at hall
        omega
      · by_contra hle
        rw [List.getElem?_append_left (by omega)] at hget
        exact hplain.2 (List.mem_of_getElem? hget)
    obtain ⟨n, hn⟩ : ∃ n, m + 1 - u.length = n + 1 := ⟨m - u.length, by omega⟩
    refine .inr ⟨n, ?_, hn ▸ h.drop⟩
    rw [veilFrom_append_of_le (Nat.le_of_lt hlt), hn]

/-- What hides a character does not show it. -/
theorem not_isSeen_of_head? {n : Nat} {c : Char} (h : (veilFrom (n + 1) w).head? = some c) :
    ¬ IsSeen c := by
  intro hc
  cases w with
  | nil => cases h
  | cons d r =>
    have hd : veiled d = c := Option.some.inj h
    exact Hides.not_mem_map_veiled hc [d] (by rw [List.map_singleton, hd]; exact .head _)

/-- **In front of a character that is seen**, what has no bracket in it is seen. -/
theorem veilFrom_append_of_seen {c : Char} (hplain : '<' ∉ u ∧ '>' ∉ u) (hc : IsSeen c)
    (h : EndsAtBracket hidden (u ++ w))
    (hseen : (veilFrom hidden (u ++ w))[u.length]? = some c) :
    veilFrom hidden (u ++ w) = u ++ w.veil := by
  have hw : w ≠ [] := by
    rintro rfl
    have hlt := (List.getElem?_eq_some_iff.mp hseen).1
    rw [length_veilFrom, List.append_nil] at hlt
    exact Nat.lt_irrefl _ hlt
  rcases veilFrom_append_of_plain hplain hw h with hshown | ⟨n, hhidden, -⟩
  · exact hshown
  · rw [hhidden, List.getElem?_append_right (by rw [List.length_map]), List.length_map,
      Nat.sub_self, ← List.head?_eq_getElem?] at hseen
    exact absurd hc (not_isSeen_of_head? hseen)

end CiteMarkup
