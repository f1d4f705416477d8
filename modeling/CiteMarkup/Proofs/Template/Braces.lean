import CiteMarkup.Proofs.Template.Brackets
/-!
# Braces of segments

What ends a template is found by its braces alone, while the bars of its parameters are found by
the brackets of both kinds.  Where the braces balance the two readings agree on how many templates
are open (`templates_of_braceDepth`), so each segment of a parameter text has its braces to itself
(`braceDepth_of_isParted`), up to a last brace that needs the bar behind it.  Segments in another
order balance if this is not so of the last one (`braceDepth_join_spaced`).
-/

namespace CiteMarkup

variable {n m : Nat} {b a : Bool} {c : Char} {s s' : Nesting} {t u v w : Text} {parts : List Text}

/-! ## 1. Cutting the reading -/

/-- **A character that is no brace cuts the reading in two**, and it does not matter which it is. -/
theorem braceDepth_cut (hc : c ∉ ['{', '}']) (hu : b = true → u ≠ []) (v : Text) :
    braceDepth n b (u ++ c :: v) =
      (braceDepth n b (u ++ ['|'])).bind fun m => braceDepth m false v := by
  induction u generalizing n b with
  | nil =>
    obtain rfl : b = false := by simpa using hu
    rw [List.nil_append, List.nil_append, braceDepth_cons hc, braceDepth_cons (by decide)]
    rfl
  | cons d r ih =>
    cases b with
    | true =>
      rw [List.cons_append, List.cons_append, braceDepth, braceDepth]
      exact ih (by simp)
    | false =>
      simp only [List.mem_cons, List.not_mem_nil, or_false, not_or] at hc
      have hhead : ∀ {e : Char}, e = '{' ∨ e = '}' →
          ((r ++ c :: v).head? = some e ↔ (r ++ ['|']).head? = some e) := by
        intro e he
        cases r with
        | nil => rcases he with rfl | rfl <;> simp [hc]
        | cons a r => rfl
      have hne : ∀ x : Text, x ≠ [] → (r ++ x).isEmpty = false := by
        intro x hx
        simp [hx]
      have hnonempty : ∀ {e : Char}, (r ++ ['|']).head? = some e → e = '{' ∨ e = '}' → r ≠ [] := by
        rintro e he hbrace rfl
        rcases hbrace with rfl | rfl <;> cases he
      rw [List.cons_append, List.cons_append, braceDepth, braceDepth,
        hne _ (List.cons_ne_nil c v), hne _ (List.cons_ne_nil '|' [])]
      simp only [decide_eq_decide.mpr (hhead (.inl rfl)), decide_eq_decide.mpr (hhead (.inr rfl)),
        Bool.and_false, Bool.false_eq_true, if_false]
      split
      · rename_i hopen
        exact ih fun _ => hnonempty (of_decide_eq_true (Bool.and_eq_true_iff.mp hopen).2) (.inl rfl)
      · split
        · rename_i hclose
          split
          · rfl
          · exact ih fun _ =>
              hnonempty (of_decide_eq_true (Bool.and_eq_true_iff.mp hclose).2) (.inr rfl)
        · exact ih (by simp)

/-- Characters in front that are no braces do not matter. -/
theorem braceDepth_append_left (hw : ∀ c ∈ w, c ∉ ['{', '}']) (n : Nat) (v : Text) :
    braceDepth n false (w ++ v) = braceDepth n false v := by
  induction w with
  | nil => rfl
  | cons c w ih =>
    rw [List.cons_append, braceDepth_cons (hw c List.mem_cons_self),
      ih fun d hd => hw d (List.mem_cons_of_mem _ hd)]

/-- Nor do such characters in front of a bar. -/
theorem braceDepth_append_bar (hw : ∀ c ∈ w, c ∉ ['{', '}']) (n : Nat) (u : Text) :
    braceDepth n false (u ++ (w ++ ['|'])) = braceDepth n false (u ++ ['|']) := by
  cases w with
  | nil => rfl
  | cons c w =>
    have hrest : ∀ m, braceDepth m false (w ++ ['|']) = some m := by
      intro m
      rw [braceDepth_append_left fun d hd => hw d (List.mem_cons_of_mem _ hd)]
      rfl
    rw [List.cons_append, braceDepth_cut (hw c List.mem_cons_self) (by simp)]
    simp only [hrest]
    exact Option.bind_fun_some _

/-- Blanks around a text in front of a bar do not matter. -/
theorem braceDepth_trim_bar (n : Nat) (t : Text) :
    braceDepth n false (Text.trim t ++ ['|']) = braceDepth n false (t ++ ['|']) := by
  have hblank : ∀ {x : Text}, (∀ c ∈ x, isBlank c = true) → ∀ c ∈ x, c ∉ ['{', '}'] := by
    intro x hx c hc
    have hno := isLabel_blank hx c hc
    simp only [List.mem_cons, List.not_mem_nil, or_false, not_or] at hno ⊢
    exact ⟨hno.2.2.1, hno.2.2.2.2.1⟩
  obtain ⟨front, back, ht, -, hfront, hback⟩ := Text.exists_trim t
  conv_rhs => rw [ht, List.append_assoc, List.append_assoc,
    braceDepth_append_left (hblank hfront), braceDepth_append_bar (hblank hback)]

/-! ## 2. Braces and brackets -/

/-- The brackets of a pair are alike. -/
theorem Nesting.eq_of_pair? {d : Char} (h : s.pair? c d = some s') : d = c ∧
    (c = '{' ∧ s'.templates = s.templates + 1 ∨
      c = '}' ∧ s.templates ≠ 0 ∧ s'.templates = s.templates - 1 ∨
        (c = '[' ∨ c = ']') ∧ s'.templates = s.templates) := by
  unfold pair? at h
  split at h
  · cases h
  rename_i hd
  refine ⟨(Decidable.not_not.mp hd).symm, ?_⟩
  split at h
  · rename_i hc
    obtain rfl := Option.some.inj h
    exact .inl ⟨hc, rfl⟩
  split at h
  · rename_i hc
    split at h
    · cases h
    · rename_i hn
      obtain rfl := Option.some.inj h
      exact .inr (.inl ⟨hc, hn, rfl⟩)
  split at h
  · rename_i hc
    obtain rfl := Option.some.inj h
    exact .inr (.inr ⟨.inl hc, rfl⟩)
  split at h
  · rename_i hc
    split at h
    · cases h
    · obtain rfl := Option.some.inj h
      exact .inr (.inr ⟨.inr hc, rfl⟩)
  · cases h

/-- **Where the braces balance, both readings find the same templates open.**  Only in a pair of
links the one reading is within a pair and the other is not. -/
theorem templates_of_braceDepth
    (hs : stateAfter Nesting.pair? Nesting.isOutside '|' b s u = some s')
    (hd : braceDepth s.templates a (u ++ ['|']) = some m)
    (hb : a = b ∨ b = true ∧ a = false ∧ ∃ c r, u = c :: r ∧ (c = '[' ∨ c = ']')) :
    m = s'.templates := by
  induction u generalizing b a s with
  | nil =>
    cases b with
    | true => cases hs
    | false =>
      obtain rfl := Option.some.inj hs
      obtain rfl : a = false := by simpa using hb
      exact (Option.some.inj hd).symm
  | cons c r ih =>
    cases b with
    | true =>
      rw [stateAfter] at hs
      rcases hb with rfl | ⟨-, rfl, c', r', hr, hc⟩
      · exact ih hs hd (.inl rfl)
      · obtain ⟨rfl, rfl⟩ := List.cons.inj hr
        have hno : c ∉ ['{', '}'] := by rcases hc with rfl | rfl <;> decide
        rw [List.cons_append, braceDepth_cons hno] at hd
        exact ih hs hd (.inl rfl)
    | false =>
      obtain rfl : a = false := by simpa using hb
      rw [stateAfter] at hs
      cases hpair : r.head?.bind (s.pair? c) with
      | some s₁ =>
        simp only [hpair] at hs
        obtain ⟨d, hhead, hpair⟩ := Option.bind_eq_some_iff.mp hpair
        obtain ⟨r', rfl⟩ := List.head?_eq_some_iff.mp hhead
        obtain ⟨rfl, ⟨rfl, hn⟩ | ⟨rfl, hpos, hn⟩ | ⟨hc, hn⟩⟩ := Nesting.eq_of_pair? hpair
        · refine ih (a := true) hs ?_ (.inl rfl)
          rw [hn]
          simpa [braceDepth] using hd
        · refine ih (a := true) hs ?_ (.inl rfl)
          rw [hn]
          simpa [braceDepth, hpos] using hd
        · refine ih (a := false) hs ?_ (.inr ⟨rfl, rfl, d, r', rfl, hc⟩)
          have hno : d ∉ ['{', '}'] := by rcases hc with rfl | rfl <;> decide
          rw [hn]
          rwa [List.cons_append, braceDepth_cons hno] at hd
      | none =>
        simp only [hpair] at hs
        split at hs
        · cases hs
        -- what is no pair of the one reading is none of the other
        have hhead : ∀ d, d ≠ '|' → (r ++ ['|']).head? = some d → ∃ r', r = d :: r' := by
          intro d hbar hr
          cases r with
          | nil => exact absurd (Option.some.inj hr).symm hbar
          | cons e r => exact ⟨r, by rw [Option.some.inj hr]⟩
        rw [List.cons_append] at hd
        rcases braceDepth_cases hd with ⟨rfl, hr, -⟩ | ⟨rfl, hr, hn, -⟩ | ⟨-, -, hd⟩
        · obtain ⟨r', rfl⟩ := hhead '{' (by decide) hr
          simp [Nesting.pair?] at hpair
        · obtain ⟨r', rfl⟩ := hhead '}' (by decide) hr
          simp [Nesting.pair?, hn] at hpair
        · exact ih (a := false) hs hd (.inl rfl)

/-- **The segments of a parameter text have their braces to themselves**, if those of the text
balance. -/
theorem braceDepth_of_isParted (h : IsParted parts)
    (hd : braceDepth 0 false (Text.join ['|'] parts ++ ['|']) = some 0) :
    ∀ u ∈ parts, braceDepth 0 false (u ++ ['|']) = some 0 := by
  induction parts with
  | nil => simp
  | cons u rest ih =>
    by_cases hne : rest = []
    · subst hne
      simpa [Text.join] using hd
    · obtain ⟨v, rest, rfl⟩ := List.exists_cons_of_ne_nil hne
      rw [join_cons, List.append_assoc, List.cons_append,
        braceDepth_cut (by decide) (by simp)] at hd
      obtain ⟨m, hm, hrest⟩ := Option.bind_eq_some_iff.mp hd
      obtain ⟨hu, hclosed⟩ := List.pairwise_cons.mp h.closed
      -- nothing is open behind the first one
      obtain rfl : m = 0 :=
        templates_of_braceDepth (isClosed_iff.mp (hu v List.mem_cons_self)) hm (.inl rfl)
      refine List.forall_mem_cons.mpr ⟨hm, ih ⟨?_, hclosed⟩ hrest⟩
      exact fun w hw => h.piece w (List.mem_cons_of_mem _ hw)

/-! ## 3. The last brace -/

/-- What balances in front of a bar balances by itself, or ends with a brace too many. -/
theorem braceDepth_of_bar (hu : b = true → u ≠ []) (h : braceDepth n b (u ++ ['|']) = some m) :
    braceDepth n b u = some m ∨ ∃ v, u = v ++ ['}'] ∧ braceDepth n b v = some m := by
  induction u generalizing n b with
  | nil =>
    obtain rfl : b = false := by simpa using hu
    exact .inl h
  | cons c r ih =>
    cases b with
    | true =>
      rcases ih (b := false) (by simp) h with hm | ⟨v, rfl, hm⟩
      · exact .inl hm
      · exact .inr ⟨c :: v, rfl, hm⟩
    | false =>
      cases r with
      | nil =>
        by_cases hc : c = '}'
        · subst hc
          exact .inr ⟨[], rfl, h⟩
        · refine .inl ?_
          rw [← h]
          simp [braceDepth, hc]
      | cons d r =>
        -- a text that ends earlier is read as far as the second character in the same way
        have hearlier : ∀ {k : Nat} {a : Bool},
            (∀ x, braceDepth n false (c :: d :: x) = braceDepth k a (d :: x)) →
            braceDepth k a (d :: (r ++ ['|'])) = some m →
            (a = false → d = '}' → braceDepth n false [c] = some n ∧ k = n) →
            braceDepth n false (c :: d :: r) = some m ∨
              ∃ v, c :: d :: r = v ++ ['}'] ∧ braceDepth n false v = some m := by
          intro k a hstep hrest hlast
          rcases ih (by simp) hrest with hm | ⟨v, hv, hm⟩
          · exact .inl ((hstep r).trans hm)
          · refine .inr ⟨c :: v, by rw [hv]; rfl, ?_⟩
            cases v with
            | nil =>
              obtain rfl : d = '}' := (List.cons.inj hv).1
              cases a with
              | true => cases hm
              | false =>
                obtain ⟨hc, rfl⟩ := hlast rfl rfl
                exact hc.trans hm
            | cons e v =>
              obtain rfl : d = e := (List.cons.inj hv).1
              rw [hstep, hm]
        rw [List.cons_append, List.cons_append] at h
        rcases braceDepth_cases h with ⟨hc, hd, h⟩ | ⟨hc, hd, hn, h⟩ | ⟨hopen, hclose, h⟩
        · exact hearlier (fun x => braceDepth_of_open hc hd) h (by simp)
        · exact hearlier (fun x => braceDepth_of_close hc hd hn) h (by simp)
        · simp only [List.head?_cons, List.cons_ne_nil, or_false] at hopen hclose
          refine hearlier (fun x => braceDepth_of_neither hopen (by simpa using hclose)) h ?_
          rintro - rfl
          have hc : c ≠ '}' := fun hc => hclose ⟨hc, rfl⟩
          exact ⟨by simp [braceDepth, hc], rfl⟩

/-- Texts with a space and a bar between two balance if the last one does. -/
theorem braceDepth_join_spaced (h : ∀ u ∈ parts, braceDepth 0 false (u ++ ['|']) = some 0)
    (hne : parts ≠ []) (v : Text) :
    braceDepth 0 false (Text.join " |".toList parts ++ v) =
      braceDepth 0 false (parts.getLast hne ++ v) := by
  induction parts with
  | nil => exact absurd rfl hne
  | cons u rest ih =>
    by_cases hnil : rest = []
    · subst hnil
      simp [Text.join]
    · obtain ⟨w, rest, rfl⟩ := List.exists_cons_of_ne_nil hnil
      have hjoin : Text.join " |".toList (u :: w :: rest) ++ v =
          u ++ ' ' :: '|' :: (Text.join " |".toList (w :: rest) ++ v) := by simp [Text.join]
      rw [hjoin, braceDepth_cut (by decide) (by simp), h u List.mem_cons_self, Option.bind_some,
        braceDepth_cons (by decide), ih (fun x hx => h x (List.mem_cons_of_mem _ hx)) hnil,
        List.getLast_cons hnil]

end CiteMarkup
