import CiteMarkup.Chain.Joining
import CiteMarkup.Proofs.Text.Slice
import Mathlib.Data.List.Chain
/-!
# Runs of citations

The runs of a page hold the marks of the page in order, each at most once
(`sublist_tokens_runs`).  In a run, a locator stands right behind its citation, and each unit
right behind the one before it (`IsRun`), so a run takes up the stretch from its first unit to
its last (`IsRun.span_eq`).
-/

namespace CiteMarkup

/-- A citation as a mark of the page. -/
def Cite.token : Cite → Token
  | tag t => .tag t
  | chain t => .chain t

/-- The marks of a unit. -/
def CiteUnit.tokens (u : CiteUnit) : List Token :=
  u.cite.token :: (u.locator.map Token.locator).toList

/-- What a unit is on a page: a citation that can be part of a run, and its locator right behind
it. -/
structure CiteUnit.IsUnit (seen : Text) (u : CiteUnit) : Prop where
  cite : u.cite.token.cite? = some u.cite
  locator : ∀ t, u.locator = some t → isGapBetween seen u.cite.span.stop t.span.start = true

/-- One unit stands right behind the other. -/
def CiteUnit.Meets (seen : Text) (u v : CiteUnit) : Prop :=
  isGapBetween seen u.span.stop v.span.start = true

/-- Units that make up a run. -/
structure IsRun (seen : Text) (run : List CiteUnit) : Prop where
  nonempty : run ≠ []
  units : ∀ u ∈ run, u.IsUnit seen
  adjacent : run.IsChain (CiteUnit.Meets seen)

variable {seen : Text} {tokens : List Token} {run : List CiteUnit} {u : CiteUnit}

/-! ## 1. Units -/

theorem Token.eq_token_of_cite? {k : Token} {c : Cite} (h : k.cite? = some c) : k = c.token := by
  unfold cite? at h
  split at h
  · split at h
    · obtain rfl := Option.some.inj h
      rfl
    · cases h
  · obtain rfl := Option.some.inj h
    rfl
  · cases h

theorem eq_cons_of_locatorBehind? {stop : Nat} {t : Template}
    (h : locatorBehind? seen stop tokens = some t) :
    ∃ rest, tokens = .locator t :: rest ∧ isGapBetween seen stop t.span.start = true := by
  unfold locatorBehind? at h
  split at h
  · split at h
    · rename_i hgap
      obtain rfl := Option.some.inj h
      exact ⟨_, rfl, hgap⟩
    · cases h
  · cases h

theorem isUnit_of_mem_unitsFrom {taken : Bool} (h : some u ∈ unitsFrom seen taken tokens) :
    u.IsUnit seen := by
  fun_induction unitsFrom seen taken tokens with
  | case1 => cases h
  | case2 k r ih => exact ih h
  | case3 k r hk ih =>
    rcases List.mem_cons.mp h with h | h
    · cases h
    · exact ih h
  | case4 k r c hk l ih =>
    rcases List.mem_cons.mp h with h | h
    · obtain rfl := Option.some.inj h
      refine ⟨by rw [← Token.eq_token_of_cite? hk, hk], fun t ht => ?_⟩
      exact (eq_cons_of_locatorBehind? ht).choose_spec.2
    · exact ih h

/-- The marks of what stands in the place of a token. -/
def unitTokens (u : Option CiteUnit) : List Token := (u.map CiteUnit.tokens).getD []

/-- The units hold marks of the page in order, each at most once. -/
theorem sublist_unitsFrom (seen : Text) (taken : Bool) (tokens : List Token) :
    ((unitsFrom seen taken tokens).flatMap unitTokens).Sublist
      (if taken then tokens.tail else tokens) := by
  fun_induction unitsFrom seen taken tokens with
  | case1 => simp
  | case2 k r ih => simpa using ih
  | case3 k r hk ih =>
    have hr : ((unitsFrom seen false r).flatMap unitTokens).Sublist r := by simpa using ih
    simpa [unitTokens] using hr.cons k
  | case4 k r c hk l ih =>
    obtain rfl := Token.eq_token_of_cite? hk
    rw [List.flatMap_cons]
    refine List.Sublist.cons_cons _ ?_
    cases hl : l with
    | none =>
      rw [hl] at ih
      simpa using ih
    | some t =>
      obtain ⟨rest, rfl, -⟩ := eq_cons_of_locatorBehind? hl
      rw [hl] at ih
      have hrest :
          ((unitsFrom seen true (.locator t :: rest)).flatMap unitTokens).Sublist rest := by
        simpa using ih
      exact hrest.cons_cons _

/-! ## 2. Runs -/

theorem flatMap_runsFrom (seen : Text) (run : List CiteUnit) (units : List (Option CiteUnit)) :
    (runsFrom seen run units).flatMap (·.flatMap CiteUnit.tokens) =
      run.reverse.flatMap CiteUnit.tokens ++ units.flatMap unitTokens := by
  fun_induction runsFrom seen run units <;> simp_all [unitTokens]

theorem IsRun.single (h : u.IsUnit seen) : IsRun seen [u] :=
  ⟨by simp, by simpa using h, List.isChain_singleton u⟩

theorem IsRun.snoc {v : CiteUnit} (h : IsRun seen run)
    (hu : u.IsUnit seen) (hlast : run.getLast? = some v) (hgap : v.Meets seen u) :
    IsRun seen (run ++ [u]) := by
  refine ⟨by simp, fun w hw => ?_, ?_⟩
  · rcases List.mem_append.mp hw with hw | hw
    · exact h.units w hw
    · obtain rfl := List.mem_singleton.mp hw
      exact hu
  · refine List.isChain_append.mpr ⟨h.adjacent, List.isChain_singleton u, ?_⟩
    intro x hx y hy
    rw [hlast] at hx
    obtain rfl := Option.mem_some.mp hx
    obtain rfl : u = y := by simpa using hy
    exact hgap

theorem isRun_of_mem_runsFrom {acc : List CiteUnit} {units : List (Option CiteUnit)}
    (hacc : acc ≠ [] → IsRun seen acc.reverse) (hunits : ∀ u, some u ∈ units → u.IsUnit seen)
    (h : run ∈ runsFrom seen acc units) : IsRun seen run := by
  fun_induction runsFrom seen acc units with
  | case1 acc hempty => cases h
  | case2 acc hempty =>
    obtain rfl := List.mem_singleton.mp h
    exact hacc (by simpa using hempty)
  | case3 acc r hempty ih =>
    exact ih (fun hne => absurd rfl hne) (fun u hu => hunits u (List.mem_cons_of_mem _ hu)) h
  | case4 acc r hempty ih =>
    rcases List.mem_cons.mp h with rfl | h
    · exact hacc (by simpa using hempty)
    · exact ih (fun hne => absurd rfl hne) (fun u hu => hunits u (List.mem_cons_of_mem _ hu)) h
  | case5 u r ih =>
    refine ih (fun _ => ?_) (fun u hu => hunits u (List.mem_cons_of_mem _ hu)) h
    exact IsRun.single (hunits u List.mem_cons_self)
  | case6 u r v acc hgap ih =>
    have hrun := hacc (List.cons_ne_nil v acc)
    refine ih (fun _ => ?_) (fun u hu => hunits u (List.mem_cons_of_mem _ hu)) h
    rw [List.reverse_cons]
    exact hrun.snoc (hunits u List.mem_cons_self) (by simp) hgap
  | case7 u r v acc hgap ih =>
    rcases List.mem_cons.mp h with rfl | h
    · exact hacc (List.cons_ne_nil v acc)
    · refine ih (fun _ => ?_) (fun u hu => hunits u (List.mem_cons_of_mem _ hu)) h
      exact IsRun.single (hunits u List.mem_cons_self)

/-- **The runs of a page are runs**, and their marks are marks of the page, in order. -/
theorem isRun_of_mem_runs {p : Page} {names : List Text} (h : run ∈ p.runs names) :
    IsRun p.seen run :=
  isRun_of_mem_runsFrom (fun hne => absurd rfl hne) (fun _ hu => isUnit_of_mem_unitsFrom hu) h

theorem sublist_tokens_runs (p : Page) (names : List Text) :
    ((p.runs names).flatMap (·.flatMap CiteUnit.tokens)).Sublist (p.tokens names) := by
  rw [Page.runs, flatMap_runsFrom]
  simpa using sublist_unitsFrom p.seen false (p.tokens names)

/-! ## 3. The stretch of a run -/

theorem le_of_isGapBetween {a b : Nat} (h : isGapBetween seen a b = true) : a ≤ b := by
  rw [isGapBetween, Bool.and_eq_true] at h
  exact of_decide_eq_true h.1

namespace CiteUnit

/-- The last mark of a unit. -/
def last (u : CiteUnit) : Token := (u.locator.map Token.locator).getD u.cite.token

theorem getLast?_tokens (u : CiteUnit) : u.tokens.getLast? = some u.last := by
  unfold tokens last
  cases u.locator <;> rfl

theorem span_token (c : Cite) : c.token.span = c.span := by
  cases c <;> rfl

theorem IsUnit.start_eq (h : u.IsUnit seen) : u.span.start = u.cite.span.start := by
  unfold span
  split
  · rename_i t ht
    have hle := le_of_isGapBetween (h.locator t ht)
    have := u.cite.span.ordered
    exact Nat.min_eq_left (by omega)
  · rfl

theorem IsUnit.stop_eq (h : u.IsUnit seen) : u.span.stop = u.last.span.stop := by
  unfold span last
  cases ht : u.locator with
  | none => rw [Option.map_none, Option.getD_none, span_token]
  | some t =>
    have hle := le_of_isGapBetween (h.locator t ht)
    have := t.span.ordered
    exact Nat.max_eq_right (by omega)

end CiteUnit

namespace IsRun

/-- The units of a run stand one behind the other. -/
theorem pairwise (h : IsRun seen run) :
    run.Pairwise fun u v => u.span.stop ≤ v.span.start := by
  have : IsTrans CiteUnit fun u v => u.span.stop ≤ v.span.start := ⟨fun u v w huv hvw =>
    Nat.le_trans huv (Nat.le_trans v.span.ordered hvw)⟩
  exact List.isChain_iff_pairwise.mp (h.adjacent.imp fun u v huv => le_of_isGapBetween huv)

/-- **A run takes up the stretch from its first citation to the last mark of its last unit.** -/
theorem span_eq (h : IsRun seen run) : ∃ span first last, runSpan? run = some span ∧
    run.head? = some first ∧ run.getLast? = some last ∧
    span.start = first.cite.span.start ∧ span.stop = last.last.span.stop := by
  obtain ⟨u, r, rfl⟩ := List.exists_cons_of_ne_nil h.nonempty
  obtain ⟨hfirst, -⟩ := List.pairwise_cons.mp h.pairwise
  have hu := h.units u List.mem_cons_self
  have hordered := u.span.ordered
  cases hlast : r.getLast? with
  | none =>
    obtain rfl : r = [] := List.getLast?_eq_none_iff.mp hlast
    refine ⟨_, u, u, rfl, rfl, rfl, ?_, ?_⟩
    · rw [← hu.start_eq]
      exact Nat.min_self _
    · rw [← hu.stop_eq]
      exact Nat.max_self _
  | some v =>
    have hmem := List.mem_of_getLast? hlast
    have hv := h.units v (List.mem_cons_of_mem _ hmem)
    have hle := hfirst v hmem
    have := v.span.ordered
    refine ⟨_, u, v, rfl, rfl, ?_, ?_, ?_⟩
    · rw [List.getLast?_cons, hlast]
      rfl
    · rw [← hu.start_eq, hlast]
      exact Nat.min_eq_left (by simp only [Option.getD_some]; omega)
    · rw [← hv.stop_eq, hlast]
      exact Nat.max_eq_right (by simp only [Option.getD_some]; omega)

end IsRun

end CiteMarkup
