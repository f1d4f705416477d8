import CiteMarkup.Proofs.Template.Brackets
import CiteMarkup.Proofs.Template.Found
import CiteMarkup.Proofs.Text.Value
/-!
# Segments and parameters at their offsets

A parameter text is cut at its bars and a segment at its sign.  The readers find both with one
pass; here it is said without the pass where that is (`Counts`): the pairs of brackets in front of
the place are read from left to right (`openAfter`), and nothing is open behind them.  The bars of
a parameter text count the two kinds of bracket apart and from the beginning of the text, the sign
of a segment counts them together and from the beginning of the segment.

Structure comes from the text as seen and everything else from the text as written.  So every
offset of a parameter is one of the text as written, while putting the segments together with bars
gives that text only if it has bars where it is cut.

The main result is `parameters_at_their_offsets`.
-/

namespace CiteMarkup

/-! ## 1. Separators that count -/

section Counting

variable {σ : Type} (pair? : σ → Char → Char → Option σ)
  (outside : σ → Bool) (sep : Char) (init : σ)

/-- What is open behind a text whose pairs are read from left to right; `inPair` says that the first
character is the second one of a pair. -/
def openAfter : (inPair : Bool) → σ → Text → σ
  | _, s, [] => s
  | true, s, _ :: r => openAfter false s r
  | false, s, c :: r =>
    match r.head?.bind (pair? s c) with
    | some s' => openAfter true s' r
    | none => openAfter false s r

/-- The separator stands at the place, with nothing open in front of it. -/
def Counts (t : Text) (i : Nat) : Prop :=
  t[i]? = some sep ∧ outside (openAfter pair? false init (t.take i)) = true

/-- The stretches of pieces of the given lengths, with one character between two. -/
def stretchesFrom : (offset : Nat) → (lengths : List Nat) → List Span
  | _, [] => []
  | a, n :: ns => Span.ofLength a n :: stretchesFrom (a + n + 1) ns

variable {pair? outside sep init} {b : Bool} {s s' : σ} {c : Char} {t u v : Text}

/-- Where no separator counts, what is open is what the reading of pieces keeps. -/
theorem openAfter_of_stateAfter (h : stateAfter pair? outside sep b s u = some s') :
    openAfter pair? b s u = s' := by
  induction u generalizing b s with
  | nil =>
    cases b with
    | true => cases h
    | false => exact Option.some.inj h
  | cons d r ih =>
    cases b with
    | true => exact ih h
    | false =>
      rw [stateAfter] at h
      rw [openAfter]
      cases hs₁ : r.head?.bind (pair? s d) with
      | some s₁ =>
        simp only [hs₁] at h ⊢
        exact ih h
      | none =>
        simp only [hs₁] at h ⊢
        split at h
        · cases h
        · exact ih h

/-- A character that makes no pair cuts the reading of pairs in two. -/
theorem openAfter_append_cons (hc : IsNeutral pair? c) (hu : b = true → u ≠ []) (v : Text) :
    openAfter pair? b s (u ++ c :: v) = openAfter pair? false (openAfter pair? b s u) v := by
  induction u generalizing b s with
  | nil =>
    obtain rfl : b = false := by simpa using hu
    simp only [List.nil_append, openAfter, hc.bind_eq_none]
  | cons d r ih =>
    cases b with
    | true =>
      rw [List.cons_append, openAfter, openAfter]
      exact ih (by simp)
    | false =>
      rw [List.cons_append, openAfter, openAfter, hc.head_bind]
      split
      · rename_i s₁ hs₁
        refine ih fun _ hnil => ?_
        rw [hnil] at hs₁
        cases hs₁
      · exact ih (by simp)

/-- Whether a separator counts depends on what stands in front of it only. -/
theorem counts_append_left (v : Text) {i : Nat} (hi : i < u.length) :
    Counts pair? outside sep init (u ++ v) i ↔ Counts pair? outside sep init u i := by
  rw [Counts, Counts, List.getElem?_append_left hi, List.take_append_of_le_length (Nat.le_of_lt hi)]

/-- All stretches but the last, if there is more than one. -/
theorem dropLast_stretchesFrom (a n : Nat) {ns : List Nat} (h : ns ≠ []) :
    (stretchesFrom a (n :: ns)).dropLast =
      Span.ofLength a n :: (stretchesFrom (a + n + 1) ns).dropLast := by
  obtain ⟨m, ns, rfl⟩ := List.exists_cons_of_ne_nil h
  rfl

theorem le_stop_of_mem_stretchesFrom {a : Nat} {ns : List Nat} {x : Span}
    (h : x ∈ stretchesFrom a ns) : a ≤ x.stop := by
  induction ns generalizing a with
  | nil => cases h
  | cons n ns ih =>
    rcases List.mem_cons.mp h with rfl | h
    · exact Nat.le_add_right _ _
    · have := ih h
      omega

section Pieces

variable (hsep : IsNeutral pair? sep) (hinit : ∀ s, outside s = true → s = init)
include hsep

/-- Within a piece no separator counts. -/
theorem not_counts_of_stateAfter
    (h : stateAfter pair? outside sep false init t = some s') (i : Nat) :
    ¬ Counts pair? outside sep init t i := by
  rintro ⟨hget, hout⟩
  obtain ⟨hlt, hc⟩ := List.getElem?_eq_some_iff.mp hget
  have ht : t = t.take i ++ sep :: t.drop (i + 1) := by
    rw [← hc, ← List.drop_eq_getElem_cons hlt, List.take_append_drop]
  rw [ht, stateAfter_append_cons hsep (by simp)] at h
  obtain ⟨s₁, hs₁, hrest⟩ := Option.bind_eq_some_iff.mp h
  rw [openAfter_of_stateAfter hs₁] at hout
  rw [if_pos (by simp [hout])] at hrest
  cases hrest

include hinit

/-- Behind a separator that counts the reading begins anew. -/
theorem counts_append_right (hu : stateAfter pair? outside sep false init u = some s')
    (hout : outside s' = true) (v : Text) (j : Nat) :
    Counts pair? outside sep init (u ++ sep :: v) (u.length + 1 + j) ↔
      Counts pair? outside sep init v j := by
  have hplace : u.length + 1 + j = u.length + (j + 1) := by omega
  rw [Counts, Counts, hplace, List.getElem?_append_right (Nat.le_add_right _ _),
    Nat.add_sub_cancel_left, List.getElem?_cons_succ, List.take_length_add_append,
    List.take_succ_cons, openAfter_append_cons hsep (by simp), openAfter_of_stateAfter hu,
    hinit s' hout]

/-- **A text is cut at the separators that count**, and at no others. -/
theorem mem_cuts_iff (a : Nat) (t : Text) (i : Nat) :
    a + i ∈ (stretchesFrom a (pieceLengthsFrom pair? outside sep 0 false init t)).dropLast.map
        (·.stop) ↔ Counts pair? outside sep init t i := by
  generalize hns : pieceLengthsFrom pair? outside sep 0 false init t = ns
  induction ns generalizing a t i with
  | nil => exact absurd hns (pieceLengthsFrom_ne_nil _ _ _ _ _ _ _)
  | cons k ks ih =>
    obtain ⟨u, s', hu, hk, ⟨rfl, rfl⟩ | ⟨v, rfl, hout, hv⟩⟩ :=
      exists_of_pieceLengthsFrom (by simp) hns
    · -- the last piece ends the text, and no separator in it counts
      simpa [stretchesFrom] using not_counts_of_stateAfter hsep hu i
    · obtain rfl : k = u.length := by omega
      have hks : ks ≠ [] := hv ▸ pieceLengthsFrom_ne_nil _ _ _ _ _ _ _
      rw [dropLast_stretchesFrom a _ hks, List.map_cons, List.mem_cons, Span.stop_ofLength]
      rcases Nat.lt_trichotomy i u.length with hlt | rfl | hgt
      · rw [counts_append_left _ hlt]
        refine iff_of_false ?_ (not_counts_of_stateAfter hsep hu i)
        rintro (heq | hmem)
        · omega
        · -- a later cut lies behind this separator
          obtain ⟨x, hx, hstop⟩ := List.mem_map.mp hmem
          have := le_stop_of_mem_stretchesFrom (List.dropLast_subset _ hx)
          omega
      · refine iff_of_true (.inl rfl) ⟨by simp, ?_⟩
        rw [List.take_left, openAfter_of_stateAfter hu, hout]
      · obtain ⟨j, rfl⟩ : ∃ j, i = u.length + 1 + j := ⟨i - (u.length + 1), by omega⟩
        have hplace : a + u.length + 1 + j = a + (u.length + 1 + j) := by omega
        rw [counts_append_right hsep hinit hu hout,
          ← ih (a + u.length + 1) v j (hinit s' hout ▸ hv)]
        rw [hplace]
        exact or_iff_right (by omega)

end Pieces
end Counting

/-! ## 2. Segments -/

section Segments

variable {sep : Char} {a : Nat} {ns : List Nat}

/-- The pieces of the rest of a text stand where their stretches are. -/
theorem cutApart_eq_map (t : Text) (a : Nat) (ns : List Nat) :
    cutApart ns (t.drop a) = (stretchesFrom a ns).map t.cut := by
  induction ns generalizing a with
  | nil => rfl
  | cons n ns ih =>
    have hrest : (t.drop a).drop (n + 1) = t.drop (a + n + 1) := by
      rw [List.drop_drop, Nat.add_assoc]
    rw [cutApart, hrest, ih, stretchesFrom, List.map_cons, Text.cut, Span.start_ofLength,
      Span.stop_ofLength, Text.slice_add]

/-- Each stretch begins one character behind the one in front of it. -/
theorem isChain_stretchesFrom (a : Nat) (ns : List Nat) :
    (stretchesFrom a ns).IsChain fun s s' => s'.start = s.stop + 1 := by
  induction ns generalizing a with
  | nil => exact .nil
  | cons n ns ih =>
    cases ns with
    | nil => exact .singleton _
    | cons m ns => exact .cons_cons rfl (ih (a + n + 1))

/-- **Pieces make up their text if it has separators between them**, and else they do not. -/
theorem join_cutApart_iff (hne : ns ≠ []) {t : Text}
    (hsum : a + (ns.map (· + 1)).sum = t.length + 1) :
    Text.join [sep] (cutApart ns (t.drop a)) = t.drop a ↔
      ∀ s ∈ (stretchesFrom a ns).dropLast, t[s.stop]? = some sep := by
  induction ns generalizing a with
  | nil => exact absurd rfl hne
  | cons n ns ih =>
    rw [List.map_cons, List.sum_cons] at hsum
    cases ns with
    | nil =>
      have hall : (t.drop a).take n = t.drop a := by
        rw [List.take_of_length_le]
        rw [List.length_drop]
        simp only [List.map_nil, List.sum_nil] at hsum
        omega
      have hjoin : Text.join [sep] [t.drop a] = t.drop a := by simp [Text.join]
      rw [cutApart, cutApart, hall, hjoin]
      simp [stretchesFrom]
    | cons m ns =>
      have hlt : a + n < t.length := by
        rw [List.map_cons, List.sum_cons] at hsum
        omega
      have hsplit : t.drop a = (t.drop a).take n ++ t[a + n] :: t.drop (a + n + 1) := by
        rw [← List.drop_eq_getElem_cons hlt, ← List.drop_drop, List.take_append_drop]
      have hrest : (t.drop a).drop (n + 1) = t.drop (a + n + 1) := by
        rw [List.drop_drop, Nat.add_assoc]
      -- the first piece is there in any case, so it is about the separator and what is behind it
      have hjoin : Text.join [sep] (cutApart (n :: m :: ns) (t.drop a)) = (t.drop a).take n ++
          sep :: Text.join [sep] (cutApart (m :: ns) (t.drop (a + n + 1))) := by
        rw [cutApart, hrest, cutApart, join_cons]
      rw [hjoin]
      nth_rewrite 2 [hsplit]
      rw [List.append_cancel_left_eq, List.cons.injEq, ih (by simp) (by omega),
        dropLast_stretchesFrom a n (by simp), List.forall_mem_cons, Span.stop_ofLength,
        List.getElem?_eq_getElem hlt, Option.some.injEq, eq_comm]

namespace Page

variable {p : Page}

/-- The stretches of the segments of a parameter text. -/
def stretches (p : Page) : List Span := stretchesFrom 0 (segmentLengths p.seen)

/-- The offsets at which a parameter text is cut. -/
def cuts (p : Page) : List Nat := p.stretches.dropLast.map (·.stop)

/-- A bar of a parameter text counts: neither a template nor a link is open in front of it. -/
def BarCounts (p : Page) (i : Nat) : Prop :=
  Counts Nesting.pair? Nesting.isOutside '|' {} p.seen i

/-- **The cuts of a parameter text** are its bars that count. -/
theorem mem_cuts (p : Page) (i : Nat) : i ∈ p.cuts ↔ p.BarCounts i := by
  have hsep : IsNeutral Nesting.pair? '|' := isNeutral_nesting (by decide)
  have hinit : ∀ s : Nesting, s.isOutside = true → s = {} := fun _ => Nesting.eq_of_isOutside
  have h := mem_cuts_iff hsep hinit 0 p.seen i
  rwa [Nat.zero_add] at h

theorem segments_eq (p : Page) : p.segments = p.stretches.map p.raw.cut :=
  cutApart_eq_map p.raw 0 _

theorem segmentLengths_ne_nil (t : Text) : segmentLengths t ≠ [] :=
  pieceLengthsFrom_ne_nil _ _ _ _ _ _ _

/-- **The segments make up the text as written** if that has a bar at every cut, and else they do
not. -/
theorem join_segments_iff (p : Page) :
    Text.join ['|'] p.segments = p.raw ↔ ∀ i ∈ p.cuts, p.raw[i]? = some '|' := by
  have hsum : 0 + ((segmentLengths p.seen).map (· + 1)).sum = p.raw.length + 1 := by
    rw [sum_segmentLengths, p.aligned, Nat.zero_add]
  have h : Text.join ['|'] (cutApart (segmentLengths p.seen) (p.raw.drop 0)) = p.raw.drop 0 ↔ _ :=
    join_cutApart_iff (segmentLengths_ne_nil p.seen) hsum
  simpa only [List.drop_zero, cuts, stretches, segments, List.forall_mem_map] using h

/-- **Nothing is lost of a text that is seen with its own bars.** -/
theorem join_segments (hv : p.IsVeiled) : Text.join ['|'] p.segments = p.raw :=
  p.join_segments_iff.mpr fun i hi => hv ((p.mem_cuts i).mp hi).1 (by decide)

theorem cuts_increasing (p : Page) : p.cuts.Pairwise (· < ·) := by
  rw [cuts, List.pairwise_map]
  refine List.Pairwise.sublist (List.dropLast_sublist _) (List.IsChain.pairwise ?_)
  exact (isChain_stretchesFrom 0 _).imp fun s s' h => by
    have := s'.ordered
    omega

end Page
end Segments

/-! ## 3. Parameters -/

section Params

variable {t : Text} {e : Nat}

/-- A sign of a segment counts: nothing is open in front of it, templates and links taken
together. -/
def SignCounts (t : Text) (e : Nat) : Prop := Counts depthPair? (· = 0) '=' 0 t e

/-- The sign of a segment is the first one that counts. -/
theorem signCounts_of_equalsSign? (h : equalsSign? t = some e) :
    SignCounts t e ∧ ∀ j < e, ¬ SignCounts t j := by
  obtain ⟨u, v, rfl, rfl, hu⟩ := equalsSign?_eq_some.mp h
  refine ⟨⟨by simp, ?_⟩, fun j hj hcount => ?_⟩
  · rw [List.take_left, openAfter_of_stateAfter hu]
    rfl
  · rw [SignCounts, counts_append_left _ hj] at hcount
    exact not_counts_of_stateAfter (isNeutral_depthPair? (by decide)) hu j hcount

/-- A segment without a sign has none that counts. -/
theorem not_signCounts_of_equalsSign? (h : equalsSign? t = none) (e : Nat) : ¬ SignCounts t e := by
  intro hcount
  have hsep : IsNeutral depthPair? '=' := isNeutral_depthPair? (by decide)
  have hinit : ∀ n : Nat, decide (n = 0) = true → n = 0 := fun _ => of_decide_eq_true
  have hmem := (mem_cuts_iff hsep hinit 0 t e).mpr hcount
  unfold equalsSign? at h
  split at h
  · cases h
  · rename_i hpieces
    generalize pieceLengthsFrom depthPair? (fun n => n = 0) '=' 0 false 0 t = ns at hpieces hmem
    match ns with
    | [] => cases hmem
    | [_] => cases hmem
    | n :: m :: ms => exact hpieces n m ms rfl

/-- The value of a parameter stands at its offset in the text that it is taken from. -/
theorem Param.slice_make (label : Label) (t : Text) {a b : Nat} (hab : a ≤ b) (span : Span) :
    t.slice (Param.make label (t.slice a b) a span).valueStart
        ((Param.make label (t.slice a b) a span).valueStart +
          (Param.make label (t.slice a b) a span).value.length) =
      (Param.make label (t.slice a b) a span).value := by
  have hlength := Text.leadingBlanks_add_length_trim_le (t.slice a b)
  rw [Text.length_slice] at hlength
  have hslice := Text.slice_slice t (a := a) (b := b) (i := (t.slice a b).leadingBlanks)
    (j := (t.slice a b).leadingBlanks + (t.slice a b).trim.length) (by omega)
  rw [Text.slice_trim] at hslice
  rw [Param.make, Nat.add_assoc, ← hslice]

namespace Page

variable {p : Page} {q : Param} {ns : List Nat}

/-- A parameter stands where it says.  Its value is the text at the offset of the value, within the
segment; what stands in front of the first sign of the segment that counts is the key, and what
stands behind that is the value; without such a sign the whole segment is the value. -/
structure StandsAt (p : Page) (q : Param) : Prop where
  inside : q.span.start ≤ q.valueStart ∧ q.valueStart + q.value.length ≤ q.span.stop
  value_eq : p.raw.slice q.valueStart (q.valueStart + q.value.length) = q.value
  trimmed : q.value.Trimmed
  keyed : ∀ k, q.label = .key k → ∃ e, SignCounts (p.seen.cut q.span) e ∧
    (∀ j < e, ¬ SignCounts (p.seen.cut q.span) j) ∧ q.span.start + e < q.valueStart ∧
    k = Text.trim ((p.raw.cut q.span).take e) ∧
      q.value = Text.trim ((p.raw.cut q.span).drop (e + 1))
  positional : ∀ n, q.label = .position n →
    (∀ e, ¬ SignCounts (p.seen.cut q.span) e) ∧ q.value = Text.trim (p.raw.cut q.span)

/-- What the first of several segments gives. -/
theorem standsAt_of_segment (p : Page) (a n count : Nat) (ns : List Nat) :
    ∃ q count', p.paramsFrom a count (n :: ns) = q :: p.paramsFrom (a + n + 1) count' ns ∧
      p.StandsAt q ∧ q.span = Span.ofLength a n ∧
      (q.isKeyed = true ∧ count' = count ∨ q.label = .position count' ∧ count' = count + 1) := by
  rw [paramsFrom]
  split
  · rename_i e he
    have hlt : e < n := by
      have hlt := lt_of_equalsSign? he
      rw [(p.slice a (a + n)).aligned, raw_slice, Text.length_slice] at hlt
      omega
    have hrest : (p.raw.slice a (a + n)).drop (e + 1) = p.raw.slice (a + e + 1) (a + n) := by
      rw [Text.slice, Text.slice, List.drop_drop, Nat.add_assoc]
    rw [raw_slice, hrest]
    have hbounds := Param.bounds_make (.key (Text.trim ((p.raw.slice a (a + n)).take e)))
      (p.raw.slice (a + e + 1) (a + n)) (a + e + 1) (Span.ofLength a n)
    rw [Text.length_slice] at hbounds
    refine ⟨_, count, rfl, ?_, rfl, .inl ⟨rfl, rfl⟩⟩
    refine { inside := ⟨?_, ?_⟩, value_eq := ?_, trimmed := ?_, keyed := ?_, positional := ?_ }
    · exact Nat.le_trans (by simp only [Param.make, Span.start_ofLength]; omega) hbounds.1
    · refine Nat.le_trans hbounds.2 ?_
      simp only [Param.make, Span.stop_ofLength]
      omega
    · exact Param.slice_make _ _ (by omega) _
    · exact Text.trimmed_trim _
    · intro k hk
      obtain rfl := Label.key.inj hk
      obtain ⟨hcount, hfirst⟩ := signCounts_of_equalsSign? he
      exact ⟨e, hcount, hfirst, hbounds.1, rfl, congrArg Text.trim hrest.symm⟩
    · intro n hn
      cases hn
  · rename_i he
    have hbounds := Param.bounds_make (.position (count + 1)) (p.raw.slice a (a + n)) a
      (Span.ofLength a n)
    rw [Text.length_slice] at hbounds
    refine ⟨_, count + 1, rfl, ?_, rfl, .inr ⟨rfl, rfl⟩⟩
    refine { inside := ⟨hbounds.1, ?_⟩, value_eq := ?_, trimmed := ?_,
             keyed := ?_, positional := ?_ }
    · refine Nat.le_trans hbounds.2 ?_
      simp only [Param.make, Span.stop_ofLength]
      omega
    · exact Param.slice_make _ _ (Nat.le_add_right _ _) _
    · exact Text.trimmed_trim _
    · intro k hk
      cases hk
    · intro m _
      exact ⟨not_signCounts_of_equalsSign? he, rfl⟩

theorem map_span_paramsFrom (p : Page) (a count : Nat) (ns : List Nat) :
    (p.paramsFrom a count ns).map (·.span) = stretchesFrom a ns := by
  induction ns generalizing a count with
  | nil => rfl
  | cons n ns ih =>
    obtain ⟨q, count', heq, -, hspan, -⟩ := p.standsAt_of_segment a n count ns
    rw [heq, List.map_cons, hspan, ih, stretchesFrom]

theorem standsAt_of_mem_paramsFrom {a count : Nat} (h : q ∈ p.paramsFrom a count ns) :
    p.StandsAt q := by
  induction ns generalizing a count with
  | nil => cases h
  | cons n ns ih =>
    obtain ⟨q', count', heq, hq', -, -⟩ := p.standsAt_of_segment a n count ns
    rw [heq] at h
    rcases List.mem_cons.mp h with rfl | h
    · exact hq'
    · exact ih h

/-- The parameters without a key are counted. -/
theorem labels_paramsFrom (p : Page) (a count : Nat) (ns : List Nat) :
    ((p.paramsFrom a count ns).filter (!·.isKeyed)).map (·.label) =
      (List.range' (count + 1) ((p.paramsFrom a count ns).filter (!·.isKeyed)).length).map
        Label.position := by
  induction ns generalizing a count with
  | nil => rfl
  | cons n ns ih =>
    obtain ⟨q, count', heq, -, -, ⟨hkeyed, rfl⟩ | ⟨hlabel, rfl⟩⟩ :=
      p.standsAt_of_segment a n count ns
    · rw [heq, List.filter_cons_of_neg (by simp [hkeyed])]
      exact ih _ _
    · have hkeyed : q.isKeyed = false := by rw [Param.isKeyed, hlabel]
      rw [heq, List.filter_cons_of_pos (by simp [hkeyed]), List.map_cons, List.length_cons,
        List.range'_succ, List.map_cons, hlabel, ih]

theorem params_eq (h : p.raw ≠ []) : p.params = p.paramsFrom 0 0 (segmentLengths p.seen) := by
  rw [params, if_neg (by simpa using h)]

theorem params_nil (h : p.raw = []) : p.params = [] := by
  rw [params, h]
  rfl

theorem labels_params (p : Page) :
    (p.params.filter (!·.isKeyed)).map (·.label) =
      (List.range' 1 (p.params.filter (!·.isKeyed)).length).map Label.position := by
  by_cases h : p.raw = []
  · rw [params_nil h]
    rfl
  · rw [params_eq h]
    exact p.labels_paramsFrom 0 0 _

/-- The parameters without a key are named by their numbers. -/
theorem names_params (p : Page) :
    (p.params.filter (!·.isKeyed)).map (·.name) =
      (List.range' 1 (p.params.filter (!·.isKeyed)).length).map Text.ofNat := by
  -- the name of a parameter is that of its label
  have h := congrArg (List.map fun l => Param.name ⟨l, [], 0, .empty 0⟩) p.labels_params
  rwa [List.map_map, List.map_map] at h

/-! ## 4. The whole text -/

/-- **Where the segments and the parameters of a text are.**  The text is cut at its bars that
count, its segments are what stands between the cuts, and they make up the text if it has bars
there as it is written.  The parameters are the segments in order. -/
structure StandsAtOffsets (p : Page) : Prop where
  cuts_increasing : p.cuts.Pairwise (· < ·)
  mem_cuts : ∀ i, i ∈ p.cuts ↔ p.BarCounts i
  covers : Tiles p.seen 0 p.stretches
  segments_eq : p.segments = p.stretches.map p.raw.cut
  join_iff : Text.join ['|'] p.segments = p.raw ↔ ∀ i ∈ p.cuts, p.raw[i]? = some '|'
  params_nil : p.raw = [] → p.params = []
  segment_eq : p.raw ≠ [] → p.params.map (fun q => p.raw.cut q.span) = p.segments
  chain : (p.params.map (·.span)).IsChain fun s s' => s'.start = s.stop + 1
  param : ∀ q ∈ p.params, p.StandsAt q
  names : (p.params.filter (!·.isKeyed)).map (·.name) =
    (List.range' 1 (p.params.filter (!·.isKeyed)).length).map Text.ofNat

end Page

/-- **Segments and parameters stand at their offsets**, in whatever form a text is seen. -/
theorem parameters_at_their_offsets (p : Page) : p.StandsAtOffsets := by
  have hcovers : Tiles p.seen 0 p.stretches := by
    have h : Tiles p.seen 0 ((p.paramsFrom 0 0 (segmentLengths p.seen)).map (·.span)) :=
      Page.tiles_paramsFrom (Nat.zero_le _) (isCut_segmentLengths p.seen)
    rwa [Page.map_span_paramsFrom] at h
  have hspans : p.raw ≠ [] → p.params.map (·.span) = p.stretches := fun h => by
    rw [Page.params_eq h, Page.map_span_paramsFrom]
    rfl
  refine ⟨p.cuts_increasing, p.mem_cuts, hcovers, p.segments_eq, p.join_segments_iff,
    Page.params_nil, fun h => ?segment, ?chain, fun q hq => ?param, p.names_params⟩
  case segment =>
    rw [p.segments_eq, ← hspans h, List.map_map]
    rfl
  case chain =>
    by_cases h : p.raw = []
    · simp [Page.params_nil h]
    · rw [hspans h]
      exact isChain_stretchesFrom 0 _
  case param =>
    by_cases h : p.raw = []
    · rw [Page.params_nil h] at hq
      cases hq
    · rw [Page.params_eq h] at hq
      exact Page.standsAt_of_mem_paramsFrom hq

/-- A bar that is seen where the text has another character is not given back. -/
theorem bar_not_in_text :
    Text.join ['|'] (Page.segments ⟨['a', 'x', 'b'], ['a', '|', 'b'], rfl⟩) ≠ ['a', 'x', 'b'] := by
  decide

end Params
end CiteMarkup
