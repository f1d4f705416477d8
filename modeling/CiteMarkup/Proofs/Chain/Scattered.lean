import CiteMarkup.Proofs.Chain.Collapse
import CiteMarkup.Proofs.Chain.Joining
import CiteMarkup.Proofs.Page.Signs
/-!
# Citations that stand apart

If something is seen between any two marks that could be joined, no run of the page is one of
several marks, and joining citations leaves the page as it is (`joinCitations_of_scattered`).  This
stays so when marks are written anew one by one, as what stands between them is not touched
(`scattered_spliced`).
-/

namespace CiteMarkup

/-- A mark that could be joined with another one: it is no output list. -/
def Token.joins : Token → Bool
  | .tag _ | .chain _ | .locator _ => true
  | .list _ => false

/-- Something is seen between any two marks that could be joined. -/
def Page.Scattered (p : Page) (names : List Text) : Prop :=
  ∀ k ∈ p.tokens names, ∀ l ∈ p.tokens names, k.joins = true → l.joins = true →
    isGapBetween p.seen k.span.stop l.span.start = false

instance (p : Page) (names : List Text) : Decidable (p.Scattered names) := by
  unfold Page.Scattered
  infer_instance

@[simp] theorem Token.joins_shift (n : Nat) (k : Token) : (k.shift n).joins = k.joins := by
  cases k <;> rfl

@[simp] theorem Token.joins_home (k : Token) : k.home.joins = k.joins := by
  cases k <;> rfl

variable {names : List Text} {t u v : Text} {a b : Nat} {k l : Token} {es : List Edit}

/-! ## 1. Runs -/

theorem joins_of_mem_unit {w : CiteUnit} (hk : k ∈ w.tokens) : k.joins = true := by
  rw [CiteUnit.tokens, List.mem_cons, Option.mem_toList] at hk
  rcases hk with rfl | hk
  · cases w.cite <;> rfl
  · obtain ⟨m, -, rfl⟩ := Option.map_eq_some_iff.mp hk
    rfl

/-- A run with something to join has two marks with a gap between them. -/
theorem IsRun.exists_gap {seen : Text} {run : List CiteUnit} (h : IsRun seen run)
    (hjoin : isJoinable run = true) :
    ∃ k ∈ run.flatMap CiteUnit.tokens, ∃ l ∈ run.flatMap CiteUnit.tokens,
      isGapBetween seen k.span.stop l.span.start = true := by
  have hchain := h.isChain_tokens
  have htwo : 2 ≤ (run.flatMap CiteUnit.tokens).length := by
    match run, hjoin with
    | [w], hjoin =>
      obtain ⟨m, hm⟩ := Option.isSome_iff_exists.mp (show w.locator.isSome = true from hjoin)
      simp [CiteUnit.tokens, hm]
    | w :: w' :: rest, _ =>
      simp only [List.flatMap_cons, CiteUnit.tokens, List.length_append, List.length_cons]
      omega
  obtain ⟨k, rest, heq⟩ := List.exists_cons_of_length_pos (Nat.lt_of_lt_of_le Nat.two_pos htwo)
  obtain ⟨l, rest, rfl⟩ : ∃ l r, rest = l :: r := by
    refine List.exists_cons_of_length_pos ?_
    rw [heq, List.length_cons] at htwo
    omega
  rw [heq] at hchain ⊢
  exact ⟨k, by simp, l, by simp, (List.isChain_cons_cons.mp hchain).1⟩

/-- **Citations that stand apart are not joined.** -/
theorem joinCitations_of_scattered (h : (Page.ofText t).Scattered names) :
    (joinCitations t names).1 = t := by
  have hnone : ∀ run ∈ (Page.ofText t).runs names, (joinRun t run).1 = [] := by
    intro run hrun
    refine List.eq_nil_iff_forall_not_mem.mpr fun e he => ?_
    have hjoin : isJoinable run = true := by
      by_contra hno
      unfold joinRun at he
      split at he
      · cases he
      · rw [if_pos (by simp [hno])] at he
        cases he
    obtain ⟨k, hk, l, hl, hgap⟩ := (isRun_of_mem_runs hrun).exists_gap hjoin
    obtain ⟨w, -, hkw⟩ := List.mem_flatMap.mp hk
    obtain ⟨w', -, hlw⟩ := List.mem_flatMap.mp hl
    rw [h k (mem_tokens_of_mem_run hrun hk) l (mem_tokens_of_mem_run hrun hl)
      (joins_of_mem_unit hkw) (joins_of_mem_unit hlw)] at hgap
    cases hgap
  have hedits : (((Page.ofText t).runs names).map (joinRun t)).flatMap (·.1) = [] := by
    rw [List.flatMap_map, List.flatMap_eq_nil_iff]
    exact hnone
  simp only [joinCitations, hedits]
  rfl

/-! ## 2. One text behind another -/

/-- What could be joined has something in front of it that is seen. -/
def StandsClear (names : List Text) (t : Text) : Prop :=
  ∀ l ∈ (Page.ofText t).tokens names, l.joins = true →
    isGapBetween t.veil 0 l.span.start = false

theorem isGapBetween_of_lt {s : Text} (h : b < a) : isGapBetween s a b = false := by
  rw [isGapBetween, decide_eq_false (by omega), Bool.false_and]

/-- Where no mark can be joined nothing is asked. -/
theorem scattered_of_not_joins (h : ∀ l ∈ (Page.ofText t).tokens names, l.joins = false) :
    (Page.ofText t).Scattered names ∧ StandsClear names t := by
  refine ⟨fun k hk _ _ hkj => ?_, fun l hl hlj => ?_⟩
  · rw [h k hk] at hkj
    cases hkj
  · rw [h l hl] at hlj
    cases hlj

/-- Nor is it where there is one mark. -/
theorem scattered_of_single {j : Token} (h : (Page.ofText t).tokens names = [j]) :
    (Page.ofText t).Scattered names := by
  intro l hl l' hl' _ _
  have hlt := (Page.span_of_mem_tokens hl).1
  rw [h, List.mem_singleton] at hl hl'
  rw [hl', ← hl]
  exact isGapBetween_of_lt hlt

theorem Page.scattered_append (hu : SelfContained names u)
    (hleft : (Page.ofText u).Scattered names) (hright : (Page.ofText v).Scattered names)
    (hclear : (∃ k ∈ (Page.ofText u).tokens names, k.joins = true) → StandsClear names v) :
    (Page.ofText (u ++ v)).Scattered names := by
  have hseen : (Page.ofText (u ++ v)).seen = u.veil ++ v.veil := hu.veil v
  have hlength : u.veil.length = u.length := length_veil u
  intro k hk l hl hkj hlj
  rw [hu.tokens_append, List.mem_append, List.mem_map] at hk hl
  rw [hseen]
  rcases hk with hk | ⟨k, hk, rfl⟩ <;> rcases hl with hl | ⟨l, hl, rfl⟩
  · have hle : l.span.stop ≤ u.length := (Page.span_of_mem_tokens hl).2
    have := l.span.ordered
    rw [isGapBetween_append_left (by omega)]
    exact hleft k hk l hl hkj hlj
  · have hle : k.span.stop ≤ u.length := (Page.span_of_mem_tokens hk).2
    rw [Token.joins_shift] at hlj
    rw [Token.span_shift, Span.start_shift, ← hlength, isGapBetween_append _ (by omega),
      hclear ⟨k, hk, hkj⟩ l hl hlj, Bool.and_false]
  · have hle : l.span.stop ≤ u.length := (Page.span_of_mem_tokens hl).2
    have := l.span.ordered
    have hlt := (Page.span_of_mem_tokens hk).1
    refine isGapBetween_of_lt ?_
    rw [Token.span_shift, Span.stop_shift]
    omega
  · rw [Token.joins_shift] at hkj hlj
    rw [Token.span_shift, Token.span_shift, Span.start_shift, Span.stop_shift, ← hlength,
      isGapBetween_append_right]
    exact hright k hk l hl hkj hlj

theorem StandsClear.append (hu : SelfContained names u) (hleft : StandsClear names u)
    (hright : u.veil.all isGap = false ∨ StandsClear names v) : StandsClear names (u ++ v) := by
  have hlength : u.veil.length = u.length := length_veil u
  intro l hl hlj
  rw [hu.tokens_append, List.mem_append, List.mem_map] at hl
  rw [hu.veil]
  rcases hl with hl | ⟨l, hl, rfl⟩
  · have hle : l.span.stop ≤ u.length := (Page.span_of_mem_tokens hl).2
    have := l.span.ordered
    rw [isGapBetween_append_left (by omega)]
    exact hleft l hl hlj
  · rw [Token.joins_shift] at hlj
    rw [Token.span_shift, Span.start_shift, ← hlength, isGapBetween_append _ (Nat.zero_le _),
      List.drop_zero, Bool.and_eq_false_iff]
    exact hright.imp_right fun hclear => hclear l hl hlj

/-! ## 3. Marks that are written anew -/

/-- What is seen between two places where the page can be cut is what is seen of the stretch. -/
theorem veil_slice_of_cuts (hab : a ≤ b) (hb : b ≤ t.length) (hta : SelfContained names (t.take a))
    (htb : SelfContained names (t.take b)) : (t.slice a b).veil = t.veil.slice a b := by
  have hself := selfContained_slice hab hta htb
  have hpage : t = t.take a ++ (t.slice a b ++ t.drop b) := by
    rw [slice_append_drop hab hb, List.take_append_drop]
  have hfront : (Text.veil (t.take a)).length = a := by
    rw [length_veil, List.length_take_of_le (Nat.le_trans hab hb)]
  have hmiddle : (t.slice a b).veil.length = b - a := by
    rw [length_veil, Text.length_slice]
    omega
  conv_rhs => rw [hpage, hta.veil, hself.veil]
  exact (Text.slice_between _ _ _ hfront.symm (by omega)).symm

/-- In a text with a mark something is seen. -/
theorem all_isGap_veil_of_mark (hk : k ∈ (Page.ofText t).tokens names) :
    t.veil.all isGap = false := by
  obtain ⟨c, hc, hseen⟩ := Page.bracket_of_mem_tokens hk
  have hall : ∀ c ∈ ['{', '<'], isGap c = false :=
    List.forall_mem_cons.mpr ⟨by decide, List.forall_mem_singleton.mpr (by decide)⟩
  exact List.all_eq_false.mpr ⟨c, List.mem_of_getElem? hseen, by rw [hall c hc]; simp⟩

/-- The page from `a` on, with other texts in the place of marks. -/
theorem scattered_pieces {left : Span → Text} {added : Text} {ks : List Token}
    (hm : AreMarksFrom names t a ks)
    (hleft : ∀ k ∈ ks, SelfContained names (left k.span) ∧
      ∃ l, (Page.ofText (left k.span)).tokens names = [l] ∧ (l.joins = true → k.joins = true))
    (hadded : ∀ l ∈ (Page.ofText added).tokens names, l.joins = false)
    (h : (Page.ofText t).Scattered names) :
    (Page.ofText (pieces t left added a ks)).Scattered names ∧
      ((∀ l ∈ ks, l.joins = true → isGapBetween t.veil a l.span.start = false) →
        StandsClear names (pieces t left added a ks)) := by
  induction ks generalizing a with
  | nil =>
    obtain ⟨hgap, hnone⟩ := hm.gap_nil
    have htokens : ∀ l ∈ (Page.ofText (pieces t left added a [])).tokens names,
        l.joins = false := by
      intro l hl
      rw [pieces, hgap.tokens_append, hnone, List.nil_append, List.mem_map] at hl
      obtain ⟨l, hl, rfl⟩ := hl
      rw [Token.joins_shift]
      exact hadded l hl
    exact (scattered_of_not_joins htokens).imp_right fun hclear _ => hclear
  | cons k ks ih =>
    obtain ⟨hgap, hnone⟩ := hm.gap_cons
    obtain ⟨hself, j, htokens, hjoins⟩ := hleft k List.mem_cons_self
    obtain ⟨hrest, hclear⟩ := ih hm.tail fun l hl => hleft l (List.mem_cons_of_mem _ hl)
    have hj : ∀ l ∈ (Page.ofText (left k.span)).tokens names, l = j := fun l hl => by
      rwa [htokens, List.mem_singleton] at hl
    obtain ⟨hgapScattered, hgapClear⟩ :
        (Page.ofText (t.slice a k.span.start)).Scattered names ∧
          StandsClear names (t.slice a k.span.start) :=
      scattered_of_not_joins (by simp [hnone])
    -- if the mark joins, something is seen behind it in front of the next one that does
    have hbehind : (Page.ofText (left k.span ++ pieces t left added k.span.stop ks)).Scattered
        names := by
      refine Page.scattered_append hself (scattered_of_single htokens) hrest
        fun hmark => hclear fun l' hl' => ?_
      obtain ⟨l, hl, hlj⟩ := hmark
      rw [hj l hl] at hlj
      exact h k hm.head_mem l' ((hm.mem l').mp (List.mem_cons_of_mem _ hl')).1 (hjoins hlj)
    refine ⟨Page.scattered_append hgap hgapScattered hbehind fun hmark => ?_, fun hfront =>
      hgapClear.append hgap ?_⟩
    · obtain ⟨l, hl, -⟩ := hmark
      rw [hnone] at hl
      cases hl
    · cases hjoin : j.joins with
      | true =>
        -- what is seen in front of the mark stands in the gap
        have hseen := hfront k List.mem_cons_self (hjoins hjoin)
        have hle : k.span.start ≤ t.length := Nat.le_trans k.span.ordered hm.stop_le
        rw [isGapBetween, decide_eq_true hm.le_start, Bool.true_and,
          ← veil_slice_of_cuts hm.le_start hle hm.here (hm.cuts k List.mem_cons_self).1] at hseen
        exact .inl hseen
      | false =>
        refine .inr (StandsClear.append hself (fun l hl hlj => ?_) (.inl ?_))
        · rw [hj l hl, hjoin] at hlj
          cases hlj
        · exact all_isGap_veil_of_mark (htokens ▸ List.mem_singleton_self j)

/-- **Citations that stand apart do so on the edited page**: each mark is left as one mark, and
what is added are output lists. -/
theorem scattered_spliced (hpage : SelfContained names t) (hb : Edit.Between 0 t.length es)
    (hcuts : ∀ k ∈ (Page.ofText t).tokens names, SelfContained names (t.take k.span.start) ∧
      SelfContained names (t.take k.span.stop))
    (hwithin : ∀ e ∈ es, e.StaysWithin t ((Page.ofText t).tokens names))
    (hleft : ∀ k ∈ (Page.ofText t).tokens names, SelfContained names (leftAt t es k.span) ∧
      ∃ l, (Page.ofText (leftAt t es k.span)).tokens names = [l] ∧
        (l.joins = true → k.joins = true))
    (hadded : ∀ l ∈ (Page.ofText (addedAtEnd t es).flatten).tokens names, l.joins = false)
    (h : (Page.ofText t).Scattered names) :
    (Page.ofText (Edit.spliced t t.length 0 es)).Scattered names := by
  have hm := areMarksFrom_tokens hpage hcuts
  rw [spliced_eq_pieces hm hb hwithin]
  exact (scattered_pieces hm hleft hadded h).1

end CiteMarkup
