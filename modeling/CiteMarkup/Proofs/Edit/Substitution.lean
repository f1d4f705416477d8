import CiteMarkup.Proofs.Edit.Apply
/-!
# Carrying out edits is substitution

Carrying edits out one after the other, each moved by how much the text has grown, comes to
putting all of them in at once (`applied_at_once`): of the edits for one stretch the one planned
last counts (`lastPlans`), what lies past the end of the text means its end (`Edit.clamp`), and
the text between two edits stays.  Edits of different stretches can be listed in any order.
-/

namespace CiteMarkup

/-- The stretch as far as it lies in a text of the length. -/
def Span.clamp (length : Nat) (s : Span) : Span :=
  ⟨min s.start length, min s.stop length, by have := s.ordered; omega⟩

namespace Edit

variable {t : Text} {edits es kept : List Edit} {e f : Edit}

/-- The edit of the stretch as far as it lies in a text of the length. -/
def clamp (length : Nat) (e : Edit) : Edit := ⟨e.span.clamp length, e.text⟩

/-- The edits for whose stretch no other one is planned later. -/
def lastPlans : List Edit → List Edit
  | [] => []
  | e :: es => if es.any (·.span = e.span) then lastPlans es else e :: lastPlans es

/-! ## 1. The last plan for each stretch -/

theorem lastPlans_of_pairwise (h : es.Pairwise fun a b => a.span ≠ b.span) :
    lastPlans es = es := by
  induction es with
  | nil => rfl
  | cons e es ih =>
    obtain ⟨he, hes⟩ := List.pairwise_cons.mp h
    have hnone : es.any (·.span = e.span) = false :=
      List.any_eq_false.mpr fun f hf => by simpa using Ne.symm (he f hf)
    rw [lastPlans, hnone, ih hes]
    rfl

/-- Planning one edit after the other keeps the last plan for each stretch; what has been
planned before stays unless its stretch comes again. -/
theorem foldl_plan_eq (acc : List Edit) :
    es.foldl plan acc = acc.filter (fun a => !es.any (·.span = a.span)) ++ lastPlans es := by
  induction es generalizing acc with
  | nil =>
    rw [List.foldl_nil, lastPlans, List.append_nil]
    exact (List.filter_eq_self.mpr fun _ _ => rfl).symm
  | cons e es ih =>
    have hacc : (acc.filter (·.span ≠ e.span)).filter (fun a => !es.any (·.span = a.span)) =
        acc.filter fun a => !(e :: es).any (·.span = a.span) := by
      rw [List.filter_filter]
      refine List.filter_congr fun a _ => ?_
      by_cases hspan : a.span = e.span
      · simp [hspan]
      · simp [hspan, Ne.symm hspan]
    rw [List.foldl_cons, ih, plan, List.filter_append, hacc, List.append_assoc, lastPlans]
    congr 1
    by_cases hlater : es.any (·.span = e.span) = true
    · rw [if_pos hlater, List.filter_cons_of_neg (by simp [hlater]), List.filter_nil,
        List.nil_append]
    · rw [if_neg hlater, List.filter_cons_of_pos (by simpa using hlater), List.filter_nil,
        List.singleton_append]

theorem settle_perm_lastPlans (edits : List Edit) : (settle edits).Perm (lastPlans edits) := by
  have hplans : edits.foldl plan [] = lastPlans edits := foldl_plan_eq []
  rw [settle, hplans]
  exact sortStable_perm _ _

/-! ## 2. One order only -/

/-- Edits of different stretches are put in order in one way only. -/
theorem eq_of_perm_of_before (hne : es.Pairwise fun a b => a.span ≠ b.span)
    (hperm : es.Perm kept) (hes : es.Pairwise fun a b => before a b = true)
    (hkept : kept.Pairwise fun a b => before a b = true) : es = kept := by
  refine List.Perm.eq_of_pairwise (fun a b ha hb hab hba => ?_) hes hkept hperm
  have hspan : a.span = b.span := by
    simp only [before, Bool.or_eq_true, Bool.and_eq_true, decide_eq_true_eq] at hab hba
    obtain ⟨⟨astart, astop, _⟩, _⟩ := a
    obtain ⟨⟨bstart, bstop, _⟩, _⟩ := b
    simp only [Span.mk.injEq] at hab hba ⊢
    omega
  have hR := List.Pairwise.forall_of_forall_of_flip (R := fun a b : Edit => a = b ∨ a.span ≠ b.span)
    (fun _ _ => .inl rfl) (hne.imp fun hab => .inr hab) (hne.imp fun hab => .inr (Ne.symm hab))
    ha (hperm.mem_iff.mpr hb)
  exact hR.resolve_right fun hne => hne hspan

/-- Settled edits are the last plans in order. -/
theorem settle_eq (hperm : kept.Perm (lastPlans edits))
    (hkept : kept.Pairwise fun a b => before a b = true) : settle edits = kept :=
  eq_of_perm_of_before ((pairwise_settle_before edits).imp fun h => h.1)
    ((settle_perm_lastPlans edits).trans hperm.symm)
    ((pairwise_settle_before edits).imp fun h => h.2) hkept

/-- The order in which edits of different stretches are planned does not matter. -/
theorem settle_perm (hne : edits.Pairwise fun a b => a.span ≠ b.span) (hperm : es.Perm edits) :
    settle es = settle edits := by
  have hne' : es.Pairwise fun a b => a.span ≠ b.span :=
    (hperm.pairwise_iff fun hab => Ne.symm hab).mpr hne
  have hsame : (settle edits).Perm (lastPlans es) := by
    rw [lastPlans_of_pairwise hne']
    refine (settle_perm_lastPlans edits).trans ?_
    rw [lastPlans_of_pairwise hne]
    exact hperm.symm
  exact settle_eq hsame ((pairwise_settle_before edits).imp fun h => h.2)

/-! ## 3. All edits at once -/

/-- An edit is carried out as far as it lies in the text. -/
theorem apply_clamp (length : Nat) (p : Progress) (e : Edit) :
    Progress.apply length p (e.clamp length) = Progress.apply length p e := by
  simp [Progress.apply, clamp, Span.clamp]

theorem foldl_apply_clamp (length : Nat) (p : Progress) (es : List Edit) :
    (es.map (clamp length)).foldl (Progress.apply length) p =
      es.foldl (Progress.apply length) p := by
  rw [List.foldl_map]
  exact congrArg (fun f => es.foldl f p) (funext fun p => funext fun e => apply_clamp length p e)

/-- **Carrying out edits is simultaneous substitution.**  Take the last plan for each stretch, in
the order of the stretches.  If, as far as they lie in the text, none ends behind the start of the
next, then the result is the text between them with their texts in their places.  And edits of
different stretches lead to the same text in whatever order they are listed. -/
theorem applied_at_once (t : Text) (edits : List Edit) :
    (∀ kept : List Edit, kept.Perm (lastPlans edits) →
      (kept.Pairwise fun e f => before e f = true) →
      ((kept.map (clamp t.length)).Pairwise fun e f => e.span.stop ≤ f.span.start) →
        applyAll t edits = spliced t t.length 0 (kept.map (clamp t.length))) ∧
      ((edits.Pairwise fun e f => e.span ≠ f.span) →
        ∀ es : List Edit, es.Perm edits → applyAll t es = applyAll t edits) := by
  constructor
  · intro kept hperm hkept hpair
    have hwithin : ∀ e ∈ kept.map (clamp t.length), 0 ≤ e.span.start ∧ e.span.stop ≤ t.length := by
      intro e he
      obtain ⟨f, -, rfl⟩ := List.mem_map.mp he
      exact ⟨Nat.zero_le _, Nat.min_le_right _ _⟩
    have hbetween : Between 0 t.length (kept.map (clamp t.length)) :=
      between_of_pairwise (Nat.zero_le _) hpair hwithin
    have hdone := @foldl_apply t 0 (kept.map (clamp t.length)) [] hbetween
    rw [foldl_apply_clamp] at hdone
    rw [applyAll, settle_eq hperm hkept]
    simpa using hdone
  · intro hne es hperm
    rw [applyAll, applyAll, settle_perm hne hperm]

/-- Two plans for one stretch, an insertion in front of it, and one past the end of the text: the
order in which the three that count are listed does not matter. -/
theorem applied_at_once_insertions :
    let stretch (start stop : Nat) (h : start ≤ stop) : Span := ⟨start, stop, h⟩
    let first : Edit := ⟨stretch 1 2 (by decide), "x".toList⟩
    let again : Edit := ⟨stretch 1 2 (by decide), "yy".toList⟩
    let front : Edit := ⟨stretch 1 1 (by decide), "-".toList⟩
    let behind : Edit := ⟨stretch 7 9 (by decide), "!".toList⟩
    applyAll "abc".toList [first, behind, again, front] = "a-yyc!".toList ∧
      applyAll "abc".toList [front, again, behind] =
        applyAll "abc".toList [behind, again, front] := by
  intro stretch first again front behind
  refine ⟨?_, ?_⟩
  · rw [(applied_at_once "abc".toList [first, behind, again, front]).1 [front, again, behind]
      (by decide) (by decide) (by decide)]
    decide
  · exact (applied_at_once "abc".toList [behind, again, front]).2 (by decide)
      [front, again, behind] (by decide)

end Edit
end CiteMarkup
