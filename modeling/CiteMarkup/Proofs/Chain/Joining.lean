import CiteMarkup.Proofs.Chain.Runs
import CiteMarkup.Proofs.Page.Cuts
import CiteMarkup.Proofs.Page.Edges
import CiteMarkup.Proofs.Page.Marks
import Mathlib.Data.List.Infix
/-!
# Runs are joined as a whole

The citations of a page are cut into runs at everything but spaces and tabs.  This file says that
the cut loses no citation and makes none twice (`AreRuns`), that it is made nowhere else, and that
a run is joined as a whole or stays as it is (`IsPlan`): it is replaced from its first citation to
its last mark, or nothing is done to it, and only a unit that a chain cannot express is told of.

The main result is `runs_joined`.
-/

namespace CiteMarkup

variable {seen t : Text} {tokens : List Token} {run : List CiteUnit} {u v : CiteUnit}

/-! ## 1. Citations -/

/-- The mark is a citation that can be part of a run: a tag without content whose name, if it has
one, fits into a chain, or a chain. -/
def Token.isCitation : Token → Bool
  | .tag t => !t.isFull && t.name?.all fitsChain
  | .chain _ => true
  | _ => false

theorem Token.isSome_cite? (k : Token) : k.cite?.isSome = k.isCitation := by
  cases k <;> simp only [cite?, isCitation, Option.isSome_some, Option.isSome_none]
  split <;> simp_all

/-- A locator is no citation. -/
theorem isCitation_of_locatorBehind? {stop : Nat} {l : Template}
    (h : locatorBehind? seen stop tokens = some l) :
    tokens.tail.filter Token.isCitation = tokens.filter Token.isCitation := by
  obtain ⟨rest, rfl, -⟩ := eq_cons_of_locatorBehind? h
  rw [List.tail_cons, List.filter_cons_of_neg (by simp [Token.isCitation])]

/-- **The units are the citations among the marks**, in order and each once. -/
theorem cites_unitsFrom (seen : Text) (taken : Bool) (tokens : List Token) :
    ((unitsFrom seen taken tokens).filterMap id).map (·.cite.token) =
      (if taken then tokens.tail else tokens).filter Token.isCitation := by
  fun_induction unitsFrom seen taken tokens with
  | case1 => simp
  | case2 k r ih => simpa using ih
  | case3 k r hk ih =>
    have hno : k.isCitation = false := by rw [← Token.isSome_cite?, hk]; rfl
    rw [if_neg (by simp), List.filter_cons_of_neg (by simp [hno]), List.filterMap_cons_none rfl]
    simpa using ih
  | case4 k r c hk l ih =>
    have hyes : k.isCitation = true := by rw [← Token.isSome_cite?, hk]; rfl
    have hunits : (some (⟨c, l⟩ : CiteUnit) :: unitsFrom seen l.isSome r).filterMap id =
        ⟨c, l⟩ :: (unitsFrom seen l.isSome r).filterMap id := List.filterMap_cons_some rfl
    rw [if_neg (by simp), List.filter_cons_of_pos hyes, hunits, List.map_cons, ih,
      Token.eq_token_of_cite? hk]
    congr 1
    cases hl : l with
    | none => rfl
    | some m => exact isCitation_of_locatorBehind? hl

/-! ## 2. Where runs are cut -/

theorem flatten_runsFrom (seen : Text) (run : List CiteUnit) (units : List (Option CiteUnit)) :
    (runsFrom seen run units).flatten = run.reverse ++ units.filterMap id := by
  fun_induction runsFrom seen run units <;> simp_all

/-- What has been read of a run is the beginning of a run. -/
theorem exists_run_of_reading (seen : Text) {acc : List CiteUnit}
    (units : List (Option CiteUnit)) (hacc : acc ≠ []) :
    ∃ run ∈ runsFrom seen acc units, acc.reverse <+: run := by
  fun_induction runsFrom seen acc units with
  | case1 acc hempty => exact absurd (List.isEmpty_iff.mp hempty) hacc
  | case2 acc hempty => exact ⟨_, List.mem_singleton_self _, List.prefix_rfl⟩
  | case3 acc r hempty ih => exact absurd (List.isEmpty_iff.mp hempty) hacc
  | case4 acc r hempty ih => exact ⟨_, List.mem_cons_self, List.prefix_rfl⟩
  | case5 u r ih => exact absurd rfl hacc
  | case6 u r v acc hgap ih =>
    obtain ⟨run, hrun, hpre⟩ := ih (List.cons_ne_nil _ _)
    rw [List.reverse_cons] at hpre
    exact ⟨run, hrun, (List.prefix_append _ _).trans hpre⟩
  | case7 u r v acc hgap ih => exact ⟨_, List.mem_cons_self, List.prefix_rfl⟩

/-- Behind a unit a run is read that ends with it, and the runs of the rest are runs of the
whole. -/
theorem exists_reading (seen : Text) (acc : List CiteUnit) (w : Option CiteUnit)
    (units : List (Option CiteUnit)) : ∃ acc', (∀ u, w = some u → acc'.head? = some u) ∧
      runsFrom seen acc' units ⊆ runsFrom seen acc (w :: units) := by
  cases w with
  | none =>
    refine ⟨[], by simp, ?_⟩
    rw [runsFrom]
    split
    · exact List.Subset.refl _
    · exact List.subset_cons_self _ _
  | some w =>
    cases acc with
    | nil => exact ⟨[w], by simp, by rw [runsFrom]; exact List.Subset.refl _⟩
    | cons x acc =>
      by_cases hgap : isGapBetween seen x.span.stop w.span.start = true
      · exact ⟨w :: x :: acc, by simp, by rw [runsFrom, if_pos hgap]; exact List.Subset.refl _⟩
      · exact ⟨[w], by simp, by rw [runsFrom, if_neg hgap]; exact List.subset_cons_self _ _⟩

/-- **A run is cut only where more than a gap stands.**  Units that follow each other with a gap
between them do so in a run. -/
theorem exists_run_of_meets {units : List (Option CiteUnit)} (hmeets : u.Meets seen v)
    (h : [some u, some v] <:+: units) (acc : List CiteUnit) :
    ∃ run ∈ runsFrom seen acc units, [u, v] <:+: run := by
  obtain ⟨front, back, rfl⟩ := h
  induction front generalizing acc with
  | nil =>
    obtain ⟨acc', hhead, hsub⟩ := exists_reading seen acc (some u) (some v :: back)
    obtain ⟨acc', rfl⟩ := List.head?_eq_some_iff.mp (hhead u rfl)
    -- the second unit is read into the run that ends with the first
    have hread : runsFrom seen (u :: acc') (some v :: back) =
        runsFrom seen (v :: u :: acc') back := by
      rw [runsFrom]
      exact if_pos hmeets
    obtain ⟨run, hrun, hpre⟩ := exists_run_of_reading seen back
      (List.cons_ne_nil v (u :: acc'))
    have htwo : [u, v] <:+ (v :: u :: acc').reverse := by
      simp only [List.reverse_cons, List.append_assoc]
      exact List.suffix_append _ _
    exact ⟨run, hsub (hread ▸ hrun), htwo.isInfix.trans hpre.isInfix⟩
  | cons w front ih =>
    obtain ⟨acc', -, hsub⟩ := exists_reading seen acc w (front ++ [some u, some v] ++ back)
    obtain ⟨run, hrun, htwo⟩ := ih acc'
    exact ⟨run, hsub hrun, htwo⟩

/-! ## 3. Gaps -/

/-- What is written in front of a character that is seen is seen, if no bracket is in it. -/
theorem slice_veil_of_seen {a b : Nat} {c : Char} (hc : IsSeen c) (hseen : t.veil[b]? = some c)
    (hab : a ≤ b) (hplain : ∀ d ∈ t.slice a b, d ≠ '<' ∧ d ≠ '>') :
    t.veil.slice a b = t.slice a b := by
  have hlt : b < t.length := by
    have := (List.getElem?_eq_some_iff.mp hseen).1
    rwa [length_veil] at this
  have hsplit : t = t.take a ++ (t.slice a b ++ t.drop b) := by
    rw [slice_append_drop hab (Nat.le_of_lt hlt), List.take_append_drop]
  have hfront : (t.take a).length = a := by
    rw [List.length_take]
    omega
  have hmiddle : (t.slice a b).length = b - a := by
    rw [Text.length_slice]
    omega
  obtain ⟨u, n, hveil, hu, -, hend⟩ := exists_veilFrom_append (u := t.take a)
    (w := t.slice a b ++ t.drop b) (.zero _)
  rw [← hsplit] at hveil
  change t.veil = _ at hveil
  rw [hfront] at hu
  have hshown := veilFrom_append_of_seen (u := t.slice a b)
    ⟨fun hm => (hplain _ hm).1 rfl, fun hm => (hplain _ hm).2 rfl⟩ hc hend (by
      rw [hveil, List.getElem?_append_right (by omega), hu] at hseen
      rw [hmiddle, hseen])
  rw [hveil, hshown]
  exact Text.slice_between _ _ _ hu.symm (by omega)

/-- Only spaces and tabs stand between two stretches of a text. -/
def IsGap (t : Text) (s s' : Span) : Prop :=
  s.stop ≤ s'.start ∧ ∀ c ∈ t.slice s.stop s'.start, c = ' ' ∨ c = '\t'

/-- **A gap is seen where one is written**, in front of a character that is seen. -/
theorem isGapBetween_iff {s s' : Span} {c : Char} (hc : IsSeen c)
    (hseen : t.veil[s'.start]? = some c) :
    isGapBetween t.veil s.stop s'.start = true ↔ IsGap t s s' := by
  have hall : ∀ u : Text, u.all isGap = true ↔ ∀ c ∈ u, c = ' ' ∨ c = '\t' := fun u => by
    simp [isGap]
  rw [isGapBetween, Bool.and_eq_true, decide_eq_true_eq, hall]
  refine and_congr_right fun hle => ⟨fun h d hd => ?_, fun h => ?_⟩
  · -- what is written at a place of the gap is what is seen there
    obtain ⟨i, hi⟩ := List.mem_iff_getElem?.mp hd
    obtain ⟨hlt, hget⟩ := Text.getElem?_of_slice hi
    have hlen : s.stop + i < t.veil.length := by
      rw [length_veil]
      exact (List.getElem?_eq_some_iff.mp hget).1
    have hmem : (t.veil)[s.stop + i] ∈ t.veil.slice s.stop s'.start := by
      refine List.mem_of_getElem? (i := i) ?_
      rw [Text.getElem?_slice, if_pos hlt, List.getElem?_eq_getElem hlen]
    have hshown := Page.isVeiled_ofText t (List.getElem?_eq_getElem hlen) (by
      rcases h _ hmem with heq | heq <;> rw [heq] <;> decide)
    obtain rfl := Option.some.inj (hget.symm.trans hshown)
    exact h _ hmem
  · rw [slice_veil_of_seen hc hseen hle fun d hd => ?_]
    · exact h
    · rcases h d hd with rfl | rfl <;> decide

/-! ## 4. The runs of a page -/

/-- **What the runs of a page are.**  They hold the citations among the marks, in order and each
once, and no locator twice; in a run only spaces and tabs stand between two marks, and between units
that follow each other in different runs something else does. -/
structure AreRuns (t : Text) (tokens : List Token) (units : List (Option CiteUnit))
    (runs : List (List CiteUnit)) : Prop where
  distinct : tokens.Nodup
  cites : runs.flatten.map (·.cite.token) = tokens.filter Token.isCitation
  marks : (runs.flatten.flatMap CiteUnit.tokens).Sublist tokens
  locators : (runs.flatten.filterMap (·.locator)).Nodup
  nonempty : ∀ run ∈ runs, run ≠ []
  gaps : ∀ run ∈ runs, (run.flatMap CiteUnit.tokens).IsChain fun k k' => IsGap t k.span k'.span
  cuts : ∀ u v, [some u, some v] <:+: units → ∀ run ∈ runs, ∀ run' ∈ runs, run ≠ run' →
    u ∈ run → v ∈ run' → ¬ IsGap t u.span v.span
  all : runs.flatten = units.filterMap id

/-- A locator is a mark of its unit. -/
theorem sublist_locators (units : List CiteUnit) :
    ((units.filterMap (·.locator)).map Token.locator).Sublist
      (units.flatMap CiteUnit.tokens) := by
  induction units with
  | nil => exact .slnil
  | cons u units ih =>
    obtain ⟨c, l⟩ := u
    cases l with
    | none => simpa [CiteUnit.tokens] using ih.cons _
    | some l => simpa [CiteUnit.tokens] using (ih.cons_cons _).cons _

namespace Page

variable {names : List Text}

theorem nodup_tokens (p : Page) (names : List Text) : (p.tokens names).Nodup :=
  (pairwise_lt_tokens p names).imp fun hlt heq => by
    rw [heq] at hlt
    omega

/-- A mark begins with a bracket that is seen. -/
theorem bracket_of_mem_tokens {p : Page} {k : Token} (h : k ∈ p.tokens names) :
    ∃ c ∈ ['{', '<'], p.seen[k.span.start]? = some c := by
  rcases mem_tokens.mp h with ⟨l, hl, rfl⟩ | ⟨l, hl, rfl⟩ | ⟨l, hl, rfl⟩
  · exact ⟨'{', by decide, (isInvocation_of_mem_templates hl).brace⟩
  · exact ⟨'<', by decide, (span_of_mem_tagMarks hl).2.2⟩
  · rw [Token.span_ofTemplate]
    exact ⟨'{', by decide, (isInvocation_of_mem_citeMarks hl).brace⟩

theorem exists_isSeen_start {p : Page} {k : Token} (h : k ∈ p.tokens names) :
    ∃ c, IsSeen c ∧ p.seen[k.span.start]? = some c := by
  obtain ⟨c, hc, hseen⟩ := bracket_of_mem_tokens h
  have hall : ∀ c ∈ ['{', '<'], IsSeen c :=
    List.forall_mem_cons.mpr ⟨by decide, List.forall_mem_singleton.mpr (by decide)⟩
  exact ⟨c, hall c hc, hseen⟩

end Page

/-- The marks of a run follow each other with gaps only. -/
theorem IsRun.isChain_tokens (h : IsRun seen run) :
    (run.flatMap CiteUnit.tokens).IsChain fun k k' =>
      isGapBetween seen k.span.stop k'.span.start = true := by
  rw [List.flatMap_def, List.isChain_flatten (by simp [CiteUnit.tokens])]
  constructor
  · rintro l hl
    obtain ⟨u, hu, rfl⟩ := List.mem_map.mp hl
    rw [CiteUnit.tokens]
    cases hlocator : u.locator with
    | none => exact List.isChain_singleton _
    | some m =>
      refine List.isChain_pair.mpr ?_
      rw [CiteUnit.span_token]
      exact (h.units u hu).locator m hlocator
  · refine (List.isChain_map _).mpr (h.adjacent.imp_of_mem_imp fun u v hu hv huv => ?_)
    intro k hk k' hk'
    rw [CiteUnit.getLast?_tokens, Option.mem_some_iff] at hk
    obtain rfl : v.cite.token = k' := by simpa [CiteUnit.tokens] using hk'
    rw [← hk, CiteUnit.span_token, ← (h.units u hu).stop_eq, ← (h.units v hv).start_eq]
    exact huv

section OfText

variable {names : List Text} {runs : List (List CiteUnit)}

/-- The marks of a run are marks of the page. -/
theorem mem_tokens_of_mem_run {p : Page} (hrun : run ∈ p.runs names) {k : Token}
    (hk : k ∈ run.flatMap CiteUnit.tokens) : k ∈ p.tokens names :=
  (sublist_tokens_runs p names).subset (List.mem_flatMap.mpr ⟨run, hrun, hk⟩)

/-- Two units of a page have a gap between them where it is seen. -/
theorem meets_iff (hrun : run ∈ (Page.ofText t).runs names) (hv : v ∈ run) :
    u.Meets t.veil v ↔ IsGap t u.span v.span := by
  have hmem : v.cite.token ∈ (Page.ofText t).tokens names :=
    mem_tokens_of_mem_run hrun (List.mem_flatMap.mpr ⟨v, hv, List.mem_cons_self⟩)
  obtain ⟨c, hc, hseen⟩ := Page.exists_isSeen_start hmem
  rw [CiteUnit.span_token, ← ((isRun_of_mem_runs hrun).units v hv).start_eq] at hseen
  exact isGapBetween_iff hc hseen

/-- Runs that share a unit are one run. -/
theorem eq_of_mem_of_mem (hdistinct : runs.flatten.Nodup) {run' : List CiteUnit}
    (hrun : run ∈ runs) (hrun' : run' ∈ runs) (hu : u ∈ run) (hu' : u ∈ run') : run = run' := by
  by_contra hne
  have : Std.Symm (List.Disjoint (α := CiteUnit)) :=
    ⟨fun _ _ h => List.disjoint_comm.mp h⟩
  exact (List.nodup_flatten.mp hdistinct).2.forall hrun hrun' hne hu hu'

/-- **The runs of a page hold its citations**, and they are cut where something else stands. -/
theorem areRuns_runs (t : Text) (names : List Text) :
    AreRuns t ((Page.ofText t).tokens names)
      (unitsFrom t.veil false ((Page.ofText t).tokens names)) ((Page.ofText t).runs names) := by
  have hdistinct := Page.nodup_tokens (Page.ofText t) names
  have hall : ((Page.ofText t).runs names).flatten =
      (unitsFrom t.veil false ((Page.ofText t).tokens names)).filterMap id :=
    flatten_runsFrom _ [] _
  have hcites : ((Page.ofText t).runs names).flatten.map (·.cite.token) =
      ((Page.ofText t).tokens names).filter Token.isCitation := by
    rw [hall, cites_unitsFrom]
    rfl
  have hmarks : (((Page.ofText t).runs names).flatten.flatMap CiteUnit.tokens).Sublist
      ((Page.ofText t).tokens names) := by
    rw [← List.flatMap_id, List.flatMap_assoc]
    exact sublist_tokens_runs (Page.ofText t) names
  have hunits : ((Page.ofText t).runs names).flatten.Nodup := by
    refine List.Nodup.of_map (·.cite.token) ?_
    rw [hcites]
    exact hdistinct.filter _
  refine ⟨hdistinct, hcites, hmarks, ?locators, fun run hrun => (isRun_of_mem_runs hrun).nonempty,
    ?gaps, ?cuts, hall⟩
  case locators =>
    exact List.Nodup.of_map _ (hdistinct.sublist ((sublist_locators _).trans hmarks))
  case gaps =>
    intro run hrun
    refine (isRun_of_mem_runs hrun).isChain_tokens.imp_of_mem_imp fun k k' _ hk' hgap => ?_
    obtain ⟨c, hc, hseen⟩ := Page.exists_isSeen_start (mem_tokens_of_mem_run hrun hk')
    exact (isGapBetween_iff hc hseen).mp hgap
  case cuts =>
    intro u v hnext run hrun run' hrun' hne hu hv hgap
    -- a run that goes over the gap would be both
    obtain ⟨both, hboth, htwo⟩ := exists_run_of_meets ((meets_iff hrun' hv).mpr hgap) hnext []
    have hmem : u ∈ both ∧ v ∈ both := by
      constructor <;> exact htwo.subset (by simp)
    exact hne ((eq_of_mem_of_mem hunits hrun hboth hu hmem.1).trans
      (eq_of_mem_of_mem hunits hboth hrun' hmem.2 hv))

end OfText

/-! ## 5. What is done to a run -/

/-- The stretch from the first citation of a run to its last mark. -/
def IsStretch (run : List CiteUnit) (s : Span) : Prop :=
  ∃ first last, run.head? = some first ∧ run.getLast? = some last ∧
    s.start = first.cite.span.start ∧ s.stop = last.last.span.stop

/-- Several units, or one with a locator. -/
def IsSeveral (run : List CiteUnit) : Prop :=
  2 ≤ run.length ∨ ∃ u, run.head? = some u ∧ u.locator.isSome = true

/-- **What is done to the run in a stretch of a text**: its edits and what is told.  It stays as it
is without a word if there is nothing to join, if it goes over a line end, and if it is written as
the chain already; of the units that a chain cannot express the first one is told of. -/
inductive IsPlan (t : Text) (run : List CiteUnit) (s : Span) : List Edit × List Notice → Prop
  | lone (hone : ¬ IsSeveral run) : IsPlan t run s ([], [])
  | lines (hseveral : IsSeveral run) (hline : '\n' ∈ t.cut s) : IsPlan t run s ([], [])
  | lossy {u : CiteUnit} {front back : List CiteUnit} (hseveral : IsSeveral run)
      (hline : '\n' ∉ t.cut s) (hrun : run = front ++ u :: back)
      (hfront : ∀ w ∈ front, w.links?.isSome = true) (hu : u.links? = none) :
      IsPlan t run s ([], [.lossy (t.cut u.span)])
  | chained {links : List (List Link)} (hseveral : IsSeveral run) (hline : '\n' ∉ t.cut s)
      (hlinks : run.map CiteUnit.links? = links.map some)
      (hsame : writeLinks links.flatten = t.cut s) : IsPlan t run s ([], [])
  | joined {links : List (List Link)} (hseveral : IsSeveral run) (hline : '\n' ∉ t.cut s)
      (hlinks : run.map CiteUnit.links? = links.map some)
      (hother : writeLinks links.flatten ≠ t.cut s) :
      IsPlan t run s ([⟨s, writeLinks links.flatten⟩], [])

theorem isJoinable_iff (hrun : run ≠ []) : isJoinable run = true ↔ IsSeveral run := by
  match run with
  | [u] => simp [isJoinable, IsSeveral]
  | u :: v :: r => simp [isJoinable, IsSeveral]

/-- The links of a run are those of its units, unless one of them has none. -/
theorem runLinks_cases (run : List CiteUnit) :
    (∃ links : List (List Link), run.map CiteUnit.links? = links.map some ∧
        runLinks run = .ok links.flatten) ∨
      ∃ front u back, run = front ++ u :: back ∧ (∀ w ∈ front, w.links?.isSome = true) ∧
        u.links? = none ∧ runLinks run = .error u := by
  induction run with
  | nil => exact .inl ⟨[], rfl, rfl⟩
  | cons u run ih =>
    rw [runLinks]
    cases hu : u.links? with
    | none => exact .inr ⟨[], u, run, rfl, by simp, hu, rfl⟩
    | some ls =>
      rcases ih with ⟨links, hlinks, hok⟩ | ⟨front, v, back, rfl, hfront, hv, herror⟩
      · refine .inl ⟨ls :: links, by simp [hu, hlinks], ?_⟩
        rw [hok]
        rfl
      · refine .inr ⟨u :: front, v, back, rfl, ?_, hv, ?_⟩
        · intro w hw
          rcases List.mem_cons.mp hw with rfl | hw
          · rw [hu]
            rfl
          · exact hfront w hw
        · simp only [herror]
          rfl

/-- **A run is joined as a whole or stays as it is.** -/
theorem exists_isPlan (hrun : IsRun seen run) :
    ∃ s, IsStretch run s ∧ IsPlan t run s (joinRun t run) := by
  obtain ⟨s, first, last, hs, hfirst, hlast, hstart, hstop⟩ := hrun.span_eq
  refine ⟨s, ⟨first, last, hfirst, hlast, hstart, hstop⟩, ?_⟩
  have hjoinable := isJoinable_iff hrun.nonempty
  simp only [joinRun, hs]
  by_cases hseveral : IsSeveral run
  · by_cases hline : '\n' ∈ t.cut s
    · rw [if_pos (by simp [hline])]
      exact .lines hseveral hline
    · rw [if_neg (by simp [hjoinable.mpr hseveral, hline])]
      rcases runLinks_cases run with
        ⟨links, hlinks, hok⟩ | ⟨front, u, back, heq, hfront, hu, herror⟩
      · simp only [hok]
        split
        · rename_i hsame
          exact .chained hseveral hline hlinks hsame
        · rename_i hother
          exact .joined hseveral hline hlinks hother
      · simp only [herror]
        exact .lossy hseveral hline heq hfront hu
  · rw [if_pos (by simp [Bool.eq_false_iff.mpr (mt hjoinable.mp hseveral)])]
    exact .lone hseveral

theorem IsPlan.level {s : Span} {plan : List Edit × List Notice} (h : IsPlan t run s plan) :
    ∀ n ∈ plan.2, n.level = .warning := by
  cases h <;> simp [Notice.level]

/-- **Joining works on whole runs.**  The runs of a page hold its citations and are cut where
something else stands, each of them is joined from its first citation to its last mark or stays as
it is, and what is written and told of the page is what is written and told of its runs. -/
theorem runs_joined (t : Text) (names : List Text) :
    AreRuns t ((Page.ofText t).tokens names)
      (unitsFrom t.veil false ((Page.ofText t).tokens names)) ((Page.ofText t).runs names) ∧
    (∀ run ∈ (Page.ofText t).runs names,
      (∃ s, IsStretch run s ∧ IsPlan t run s (joinRun t run)) ∧
        ∀ n ∈ (joinRun t run).2, n.level = .warning) ∧
    joinCitations t names =
      (Edit.applyAll t (((Page.ofText t).runs names).flatMap fun run => (joinRun t run).1),
        ((Page.ofText t).runs names).flatMap fun run => (joinRun t run).2) := by
  refine ⟨areRuns_runs t names, fun run hrun => ?_, ?_⟩
  · obtain ⟨s, hs, hplan⟩ := exists_isPlan (t := t) (isRun_of_mem_runs hrun)
    exact ⟨⟨s, hs, hplan⟩, hplan.level⟩
  · simp only [joinCitations, List.flatMap_map]

end CiteMarkup
