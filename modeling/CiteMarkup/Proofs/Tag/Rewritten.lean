import CiteMarkup.Proofs.Chain.Places
import CiteMarkup.Proofs.Chain.Written
import CiteMarkup.Proofs.Tag.Leading
import CiteMarkup.Proofs.Template.Woven
/-!
# Parameters written anew and read again

A parameter text that is put together from parameters, with a space and a bar between two, is read
as these parameters if none of them but the last leaves a bracket open (`Page.map_given_joined`).
If as many parameters are read as have been written, that has been so (`isParted_of_length_joined`).
Only a single blank parameter without a key is lost.
-/

namespace CiteMarkup

variable {t u v w : Text}

/-! ## 1. Blanks around a text -/

theorem isBlank_of_mem_space : ∀ c ∈ [' '], isBlank c = true :=
  List.forall_mem_singleton.mpr (by decide)

theorem trimStart_append_of_blank (hw : ∀ c ∈ w, isBlank c = true) (t : Text) :
    Text.trimStart (w ++ t) = t.trimStart :=
  List.dropWhile_append_of_pos hw

/-- Blanks around a text are trimmed, whatever it is. -/
theorem trim_blanks (hv : ∀ c ∈ v, isBlank c = true) (hw : ∀ c ∈ w, isBlank c = true) (t : Text) :
    Text.trim (v ++ (t ++ w)) = t.trim := by
  have hend : ∀ u : Text, Text.trimEnd (u ++ w) = u.trimEnd := by
    intro u
    rw [Text.trimEnd, List.reverse_append, List.dropWhile_append_of_pos, Text.trimEnd]
    intro c hc
    exact hw c (List.mem_reverse.mp hc)
  rw [Text.trim, trimStart_append_of_blank hv, Text.trimStart, List.dropWhile_append]
  split
  · rename_i hempty
    have hnil : w.dropWhile isBlank = [] := List.dropWhile_eq_nil_iff.mpr hw
    have hstart : t.trimStart = [] := List.isEmpty_iff.mp hempty
    rw [hnil, Text.trim, hstart]
  · exact hend t.trimStart

theorem trim_append_of_blank (hw : ∀ c ∈ w, isBlank c = true) (t : Text) :
    Text.trim (t ++ w) = t.trim :=
  trim_blanks (v := []) (by simp) hw t

/-! ## 2. What a segment says -/

/-- What the parameter in a segment says. -/
def Page.given (p : Page) : Option Text × Text :=
  match equalsSign? p.seen with
  | some e => (some (Text.trim (p.raw.take e)), Text.trim (p.raw.drop (e + 1)))
  | none => (none, p.raw.trim)

/-- The parameters say what the segments do. -/
theorem Page.map_given_paramsFrom (p : Page) (a count : Nat) (ns : List Nat) :
    (p.paramsFrom a count ns).map Param.given =
      (stretchesFrom a ns).map fun s => (p.slice s.start s.stop).given := by
  induction ns generalizing a count with
  | nil => rfl
  | cons n ns ih =>
    rw [paramsFrom, stretchesFrom, List.map_cons, Span.start_ofLength, Span.stop_ofLength, given]
    cases equalsSign? (p.slice a (a + n)).seen with
    | some e =>
      rw [List.map_cons, ih]
      rfl
    | none =>
      rw [List.map_cons, ih]
      rfl

/-- Blanks around a text change nothing of what is open behind it. -/
theorem stateAfter_trim {σ : Type} {pair? : σ → Char → Char → Option σ} {outside : σ → Bool}
    {sep : Char} (hblank : ∀ c, isBlank c = true → IsNeutral pair? c ∧ c ≠ sep) (s : σ) (t : Text) :
    stateAfter pair? outside sep false s t.trim = stateAfter pair? outside sep false s t := by
  obtain ⟨front, back, ht, -, hfront, hback⟩ := Text.exists_trim t
  conv_rhs => rw [ht, stateAfter_append_end fun c hc => hblank c (hback c hc),
    stateAfter_neutral_append fun c hc => hblank c (hfront c hc)]

theorem depthAfter_trim (t : Text) : depthAfter t.trim = depthAfter t := by
  refine stateAfter_trim (fun c hc => ?_) 0 t
  have hno := isLabel_blank (w := [c]) (by simpa using hc) c List.mem_cons_self
  simp only [List.mem_cons, List.not_mem_nil, or_false, not_or] at hno
  exact ⟨isNeutral_depthPair? (by simp [brackets, hno]), hno.2.1⟩

theorem nesting_trim (s : Nesting) (t : Text) :
    stateAfter Nesting.pair? Nesting.isOutside '|' false s t.trim =
      stateAfter Nesting.pair? Nesting.isOutside '|' false s t := by
  refine stateAfter_trim (fun c hc => ?_) s t
  exact (isLabel_blank (w := [c]) (by simpa using hc)).inert.neutral c List.mem_cons_self

/-- No sign of a text counts if it is read to its end. -/
theorem equalsSign?_eq_none_iff : equalsSign? t = none ↔ (depthAfter t).isSome = true := by
  constructor
  · intro h
    obtain ⟨k, ks, hpieces⟩ :=
      List.exists_cons_of_ne_nil (pieceLengthsFrom_ne_nil depthPair? (· = 0) '=' t 0 false 0)
    obtain ⟨u, n, hu, -, ⟨-, rfl⟩ | ⟨v, rfl, hout, -⟩⟩ :=
      exists_of_pieceLengthsFrom (by simp) hpieces
    · rw [depthAfter, hu]
      rfl
    · obtain rfl : n = 0 := of_decide_eq_true hout
      rw [equalsSign?_append hu] at h
      cases h
  · intro h
    obtain ⟨n, hn⟩ := Option.isSome_iff_exists.mp h
    rw [depthAfter] at hn
    rw [equalsSign?, pieceLengthsFrom_of_stateAfter hn]

theorem Page.given_bare_of_none (h : equalsSign? t = none) :
    (Page.bare t).given = (none, Text.trim t) := by
  rw [given, seen_bare, h]
  rfl

theorem Page.given_bare_of_sign (hu : depthAfter u = some 0) (v : Text) :
    (Page.bare (u ++ '=' :: v)).given = (some (Text.trim u), Text.trim v) := by
  rw [given, seen_bare, equalsSign?_append hu]
  simp

/-- A key and a value that are told apart when they are written. -/
structure IsGiven (g : Option Text × Text) : Prop where
  key : ∀ k ∈ g.1, depthAfter k = some 0
  value : g.1 = none → (depthAfter g.2).isSome = true

/-- **What a segment says can be told apart**, and it opens and closes the same brackets. -/
theorem isGiven_segment (t : Text) : IsGiven (Page.bare t).given ∧
    nestingAfter (Param.writeGiven (Page.bare t).given) = nestingAfter t := by
  cases he : equalsSign? t with
  | none =>
    rw [Page.given_bare_of_none he]
    refine ⟨⟨?_, fun _ => ?_⟩, nesting_trim {} t⟩
    · intro k hk
      cases hk
    · rw [depthAfter_trim]
      exact equalsSign?_eq_none_iff.mp he
  | some e =>
    obtain ⟨u, v, rfl, rfl, hu⟩ := equalsSign?_eq_some.mp he
    have hsign : IsInert ['='] := by
      intro c hc
      obtain rfl := List.mem_singleton.mp hc
      decide
    have hold := nestingAfter_append hsign (by simp) u v
    have hnew := nestingAfter_append hsign (by simp) (Text.trim u) (Text.trim v)
    rw [Page.given_bare_of_sign hu]
    refine ⟨⟨?_, ?_⟩, ?_⟩
    · intro k hk
      obtain rfl := Option.some.inj hk
      rw [depthAfter_trim, hu]
    · intro hk
      cases hk
    · simp only [nesting_trim] at hnew
      rw [show nestingAfter (Text.trim u) = nestingAfter u from nesting_trim {} u] at hnew
      exact hnew.trans hold.symm

/-! ## 3. Written parameters -/

section Written

variable {q q' : Param}

/-- What is seen of a written parameter is what is seen of it, written. -/
theorem Param.Alike.hides_write (h : q.Alike q') : Hides true q.write q'.write := by
  rw [Param.write, Param.write, ← h.isKeyed]
  split
  · rename_i hk
    exact (h.name hk).append (.shown (by decide) h.value)
  · exact h.value

/-- A written parameter, as it is and as it is seen. -/
def Param.Alike.page (h : q.Alike q') : Page := ⟨q.write, q'.write, h.hides_write.length_eq⟩

/-- **A written parameter says what it has said**, also with blanks behind it. -/
theorem Param.Alike.given_page (h : q.Alike q') (hgiven : IsGiven q'.given)
    (hvalue : q.value.Trimmed) (hname : q.isKeyed = true → q.name.Trimmed)
    (hw : ∀ c ∈ w, isBlank c = true) : (h.page.append (Page.bare w)).given = q.given := by
  cases hk : q.isKeyed with
  | true =>
    have hk' : q'.isKeyed = true := h.isKeyed.symm.trans hk
    have hlength : q'.name.length = q.name.length := (h.name hk).length_eq
    have hsign : equalsSign? (q'.name ++ '=' :: (q'.value ++ w)) = some q'.name.length :=
      equalsSign?_append (hgiven.key _ (by simp [Param.given, hk'])) _
    have hseen : (h.page.append (Page.bare w)).seen = q'.name ++ '=' :: (q'.value ++ w) := by
      simp [Param.Alike.page, Param.write, hk']
    have hraw : (h.page.append (Page.bare w)).raw = q.name ++ '=' :: (q.value ++ w) := by
      simp [Param.Alike.page, Param.write, hk]
    have hdrop : (q.name ++ '=' :: (q.value ++ w)).drop (q.name.length + 1) = q.value ++ w := by
      rw [List.drop_length_add_append]
      rfl
    rw [Page.given, hseen, hsign, hraw]
    simp only [hlength, List.take_left, hdrop, trim_append_of_blank hw, hvalue.trim_eq,
      (hname hk).trim_eq, Param.given, hk, if_true]
  | false =>
    have hk' : q'.isKeyed = false := h.isKeyed.symm.trans hk
    have hsign : equalsSign? (q'.value ++ w) = none := by
      rw [equalsSign?_eq_none_iff, depthAfter_append (isLabel_blank hw)]
      exact hgiven.value (by simp [Param.given, hk'])
    have hseen : (h.page.append (Page.bare w)).seen = q'.value ++ w := by
      simp [Param.Alike.page, Param.write, hk']
    have hraw : (h.page.append (Page.bare w)).raw = q.value ++ w := by
      simp [Param.Alike.page, Param.write, hk]
    rw [Page.given, hseen, hsign, hraw]
    simp [Param.given, hk, trim_append_of_blank hw, hvalue.trim_eq]

end Written

/-! ## 4. Pages put together with bars -/

theorem length_stretchesFrom (a : Nat) (ns : List Nat) :
    (stretchesFrom a ns).length = ns.length := by
  induction ns generalizing a with
  | nil => rfl
  | cons n ns ih => rw [stretchesFrom, List.length_cons, List.length_cons, ih]

theorem stretchesFrom_add (n a : Nat) (ns : List Nat) :
    stretchesFrom (n + a) ns = (stretchesFrom a ns).map (Span.shift n) := by
  induction ns generalizing a with
  | nil => rfl
  | cons m ns ih =>
    rw [stretchesFrom, stretchesFrom, List.map_cons, ← ih (a + m + 1)]
    simp only [Span.shift, Span.ofLength, Nat.add_assoc]

namespace Page

variable {p q : Page} {ps : List Page}

/-- Pages with a bar between two. -/
def joined : List Page → Page
  | [] => bare []
  | [p] => p
  | p :: q :: rest => p.append ((bare ['|']).append (joined (q :: rest)))

theorem joined_cons (p : Page) (hne : ps ≠ []) :
    joined (p :: ps) = p.append ((bare ['|']).append (joined ps)) := by
  obtain ⟨q, rest, rfl⟩ := List.exists_cons_of_ne_nil hne
  rfl

/-- Pages with a space at the end of each but the last. -/
def spaced : List Page → List Page
  | [] => []
  | [p] => [p]
  | p :: q :: rest => p.append (bare [' ']) :: spaced (q :: rest)

theorem spaced_cons (p : Page) (hne : ps ≠ []) :
    spaced (p :: ps) = p.append (bare [' ']) :: spaced ps := by
  obtain ⟨q, rest, rfl⟩ := List.exists_cons_of_ne_nil hne
  rfl

theorem length_spaced (ps : List Page) : (spaced ps).length = ps.length := by
  induction ps with
  | nil => rfl
  | cons p ps ih =>
    by_cases hne : ps = []
    · rw [hne]
      rfl
    · rw [spaced_cons p hne, List.length_cons, List.length_cons, ih]

theorem spaced_ne_nil (hne : ps ≠ []) : spaced ps ≠ [] := by
  intro hnil
  have hlength := length_spaced ps
  rw [hnil] at hlength
  exact hne (List.length_eq_zero_iff.mp hlength.symm)

theorem append_bare_nil (p : Page) : p.append (bare []) = p := by
  obtain ⟨raw, seen, aligned⟩ := p
  simp [append]

section Texts

variable {f : Page → Text} (happend : ∀ p q, f (p.append q) = f p ++ f q)
  (hbare : ∀ t, f (bare t) = t)
include happend hbare

/-- What is written, and what is seen, of pages that are put together. -/
theorem text_joined (ps : List Page) : f (joined ps) = Text.join ['|'] (ps.map f) := by
  induction ps with
  | nil => exact hbare []
  | cons p ps ih =>
    by_cases hne : ps = []
    · rw [hne]
      simp [joined, Text.join]
    · obtain ⟨q, rest, rfl⟩ := List.exists_cons_of_ne_nil hne
      rw [joined_cons p hne, happend, happend, hbare, ih]
      simp [Text.join]

/-- A space and a bar between two are a space at the end and a bar between two. -/
theorem text_joined_spaced (ps : List Page) :
    f (joined (spaced ps)) = Text.join " |".toList (ps.map f) := by
  induction ps with
  | nil => exact hbare []
  | cons p ps ih =>
    by_cases hne : ps = []
    · rw [hne]
      simp [joined, spaced, Text.join]
    · obtain ⟨q, rest, rfl⟩ := List.exists_cons_of_ne_nil hne
      rw [spaced_cons p hne, joined_cons _ (spaced_ne_nil hne), happend, happend, happend, hbare,
        hbare, ih]
      simp [Text.join]

end Texts

/-! ## 5. Reading them again -/

theorem slice_all (p : Page) : p.slice 0 p.raw.length = p := by
  have hseen : p.seen.slice 0 p.raw.length = p.seen := by
    rw [← p.aligned, Text.slice_length, List.drop_zero]
  obtain ⟨raw, seen, aligned⟩ := p
  simp only [slice, Text.slice_length, List.drop_zero] at hseen ⊢
  simp only [hseen]

/-- The stretches of pages that are put together are the pages. -/
theorem map_slice_joined (ps : List Page) :
    (stretchesFrom 0 (ps.map (·.raw.length))).map
      (fun s => (joined ps).slice s.start s.stop) = ps := by
  induction ps with
  | nil => rfl
  | cons p ps ih =>
    by_cases hne : ps = []
    · subst hne
      simpa [stretchesFrom, joined, Span.ofLength] using p.slice_all
    · have hassoc : joined (p :: ps) = (p.append (bare ['|'])).append (joined ps) := by
        rw [joined_cons p hne]
        simp [append]
      have hbehind : ∀ a b, (joined (p :: ps)).slice (p.raw.length + 1 + a) (p.raw.length + 1 + b) =
          (joined ps).slice a b := by
        intro a b
        rw [hassoc]
        have hlength : (p.append (bare ['|'])).raw.length = p.raw.length + 1 := by simp
        rw [← hlength, slice_append_right]
      have hfirst : (joined (p :: ps)).slice 0 p.raw.length = p := by
        rw [joined_cons p hne, slice_append_left (Nat.le_refl _), slice_all]
      have hrest := stretchesFrom_add (p.raw.length + 1) 0 (ps.map (·.raw.length))
      rw [Nat.add_zero] at hrest
      rw [List.map_cons, stretchesFrom, List.map_cons, Span.start_ofLength, Span.stop_ofLength,
        Nat.zero_add, hfirst, hrest, List.map_map]
      refine congrArg (p :: ·) (Eq.trans (List.map_congr_left fun s _ => ?_) ih)
      exact hbehind s.start s.stop

variable (hparted : IsParted (ps.map (·.seen)))
include hparted

/-- Pages that are parts are as long as the segments of what they make up. -/
theorem segmentLengths_joined (hne : ps ≠ []) :
    segmentLengths (joined ps).seen = ps.map (·.raw.length) := by
  have hseen : (joined ps).seen = Text.join ['|'] (ps.map (·.seen)) :=
    text_joined seen_append seen_bare ps
  have hlengths := length_cutApart (Nat.le_of_eq (sum_segmentLengths (joined ps).seen))
  rw [← hlengths]
  nth_rewrite 2 [hseen]
  rw [hseen, segments_join (by simpa using hne) hparted, List.map_map]
  exact List.map_congr_left fun p _ => p.aligned

/-- **Pages that are parts are read one by one.** -/
theorem map_given_joined (hne : ps ≠ []) (hraw : (joined ps).raw ≠ []) :
    (joined ps).params.map Param.given = ps.map given := by
  have hslices := congrArg (List.map given) (map_slice_joined ps)
  rw [List.map_map] at hslices
  rw [params_eq hraw, map_given_paramsFrom, segmentLengths_joined hparted hne]
  exact hslices

end Page

/-! ## 6. Parameters that have been read -/

section Read

variable {p : Page} {q q' : Param} {l l' : List Param}

/-- What the parameters say that are seen in a text. -/
theorem map_given_bare (ht : t ≠ []) : (Page.bare t).params.map Param.given =
    (cutApart (segmentLengths t) t).map fun u => (Page.bare u).given := by
  have hcut : cutApart (segmentLengths t) t = (stretchesFrom 0 (segmentLengths t)).map t.cut :=
    cutApart_eq_map t 0 _
  rw [Page.params_eq (by simpa using ht), Page.map_given_paramsFrom, hcut, List.map_map]
  rfl

/-- A parameter says what a segment does. -/
theorem exists_segment (h : q ∈ (Page.bare t).params) :
    ∃ u ∈ cutApart (segmentLengths t) t, (Page.bare u).given = q.given := by
  have ht : t ≠ [] := by
    rintro rfl
    cases h
  have hmem : q.given ∈ (cutApart (segmentLengths t) t).map fun u => (Page.bare u).given := by
    rw [← map_given_bare ht]
    exact List.mem_map_of_mem h
  exact List.mem_map.mp hmem

/-- **What is seen of parameters can be told apart**, and no bar in them counts. -/
theorem isGiven_of_mem_params (h : q ∈ (Page.bare t).params) :
    IsGiven q.given ∧ IsPiece q.write := by
  obtain ⟨u, hu, heq⟩ := exists_segment h
  obtain ⟨hgiven, hnesting⟩ := isGiven_segment u
  rw [heq] at hgiven hnesting
  refine ⟨hgiven, ?_⟩
  rw [IsPiece, Param.write_eq, hnesting]
  exact (isParted_segments t).2.piece u hu

/-- No blanks stand around what a parameter says. -/
theorem Page.trimmed_given (p : Page) :
    p.given.2.Trimmed ∧ ∀ k ∈ p.given.1, Text.Trimmed k := by
  rw [given]
  split
  · refine ⟨Text.trimmed_trim _, ?_⟩
    intro k hk
    obtain rfl := Option.some.inj hk
    exact Text.trimmed_trim _
  · refine ⟨Text.trimmed_trim _, ?_⟩
    intro k hk
    cases hk

theorem Text.trim_infix (t : Text) : Text.trim t <:+: t := by
  obtain ⟨front, back, hparts, -⟩ := Text.exists_trim t
  exact ⟨front, back, hparts.symm⟩

theorem Text.slice_infix (t : Text) (i j : Nat) : t.slice i j <:+: t :=
  (List.drop_suffix _ _).isInfix.trans (List.take_prefix _ _).isInfix

/-- What a segment says stands in it. -/
theorem Page.infix_given (p : Page) :
    p.given.2 <:+: p.raw ∧ ∀ k ∈ p.given.1, k <:+: p.raw := by
  rw [given]
  split
  · rename_i e he
    refine ⟨(Text.trim_infix _).trans (List.drop_suffix _ _).isInfix, ?_⟩
    intro k hk
    obtain rfl := Option.some.inj hk
    exact (Text.trim_infix _).trans (List.take_prefix _ _).isInfix
  · refine ⟨Text.trim_infix _, ?_⟩
    intro k hk
    cases hk

/-- A parameter says what a stretch of its page does. -/
theorem exists_stretch (h : q ∈ p.params) :
    ∃ s : Span, (p.slice s.start s.stop).given = q.given := by
  have hraw : p.raw ≠ [] := by
    intro hnil
    rw [Page.params_nil hnil] at h
    cases h
  have hmem : q.given ∈ p.params.map Param.given := List.mem_map_of_mem h
  rw [Page.params_eq hraw, Page.map_given_paramsFrom] at hmem
  obtain ⟨s, -, heq⟩ := List.mem_map.mp hmem
  exact ⟨s, heq⟩

theorem trimmed_parts_of_mem_params (h : q ∈ p.params) :
    q.value.Trimmed ∧ (q.isKeyed = true → q.name.Trimmed) := by
  obtain ⟨s, heq⟩ := exists_stretch h
  have htrimmed := (p.slice s.start s.stop).trimmed_given
  rw [heq] at htrimmed
  exact ⟨htrimmed.1, fun hk => htrimmed.2 q.name (by simp [Param.given, hk])⟩

/-- Key and value of a parameter stand in the text of the parameters. -/
theorem infix_of_mem_params (h : q ∈ p.params) :
    q.value <:+: p.raw ∧ (q.isKeyed = true → q.name <:+: p.raw) := by
  obtain ⟨s, heq⟩ := exists_stretch h
  have hslice := p.raw.slice_infix s.start s.stop
  have hgiven := (p.slice s.start s.stop).infix_given
  rw [heq] at hgiven
  exact ⟨hgiven.1.trans hslice,
    fun hk => (hgiven.2 q.name (by simp [Param.given, hk])).trans hslice⟩

/-- The pages of written parameters. -/
theorem exists_pages (h : List.Forall₂ Param.Alike l l')
    (htrimmed : ∀ q ∈ l, q.value.Trimmed ∧ (q.isKeyed = true → q.name.Trimmed))
    (hgiven : ∀ q ∈ l', IsGiven q.given) :
    ∃ ps : List Page, ps.map (·.raw) = l.map Param.write ∧ ps.map (·.seen) = l'.map Param.write ∧
      List.Forall₂ (fun p q => ∀ w : Text, (∀ c ∈ w, isBlank c = true) →
        (p.append (Page.bare w)).given = q.given) ps l := by
  induction h with
  | nil => exact ⟨[], rfl, rfl, .nil⟩
  | @cons q q' l l' hq h ih =>
    obtain ⟨ps, hraw, hseen, hps⟩ := ih (fun x hx => htrimmed x (List.mem_cons_of_mem _ hx))
      fun x hx => hgiven x (List.mem_cons_of_mem _ hx)
    obtain ⟨hvalue, hname⟩ := htrimmed q List.mem_cons_self
    refine ⟨hq.page :: ps, ?_, ?_, .cons (fun w hw => ?_) hps⟩
    · rw [List.map_cons, List.map_cons, hraw]
      rfl
    · rw [List.map_cons, List.map_cons, hseen]
      rfl
    · exact hq.given_page (hgiven q' List.mem_cons_self) hvalue hname hw

/-- Spaces at the end do not matter to what is said. -/
theorem map_given_spaced {ps : List Page} (h : List.Forall₂ (fun p q => ∀ w : Text,
    (∀ c ∈ w, isBlank c = true) → (p.append (Page.bare w)).given = q.given) ps l) :
    (Page.spaced ps).map Page.given = l.map Param.given := by
  induction h with
  | nil => rfl
  | @cons p q ps l hp h ih =>
    by_cases hne : ps = []
    · subst hne
      obtain rfl : l = [] := List.forall₂_nil_left_iff.mp h
      have hself := hp [] (by simp)
      rw [Page.append_bare_nil] at hself
      rw [Page.spaced, List.map_singleton, List.map_singleton, hself]
    · rw [Page.spaced_cons p hne, List.map_cons, List.map_cons, ih,
        hp [' '] isBlank_of_mem_space]

/-- Nor do they matter to what is open. -/
theorem map_nestingAfter_spaced (ps : List Page) :
    ((Page.spaced ps).map (·.seen)).map nestingAfter = (ps.map (·.seen)).map nestingAfter := by
  have hspace : IsInert [' '] := by
    intro c hc
    obtain rfl := List.mem_singleton.mp hc
    decide
  induction ps with
  | nil => rfl
  | cons p ps ih =>
    by_cases hne : ps = []
    · rw [hne]
      rfl
    · have hp : nestingAfter (p.seen ++ [' ']) = nestingAfter p.seen :=
        nestingAfter_between (u := []) (by simp [IsInert]) hspace p.seen
      rw [Page.spaced_cons p hne, List.map_cons, List.map_cons, ih, Page.seen_append,
        Page.seen_bare, hp, List.map_cons, List.map_cons]

theorem isParted_spaced (ps : List Page) :
    IsParted ((Page.spaced ps).map (·.seen)) ↔ IsParted (ps.map (·.seen)) := by
  rw [isParted_iff, isParted_iff, map_nestingAfter_spaced]

end Read

/-! ## 7. A parameter text written anew -/

/-- The parameters of a template written anew. -/
def writtenParams (l : List Param) : Text :=
  Text.join " |".toList ((frontFirst leadingKeys l).map Param.write)

variable {l : List Param}

/-- Parameters can be told apart behind one another: only the last can leave a bracket open, and
there is more than a single blank one. -/
structure AreApart (l : List Param) : Prop where
  some : l.map Param.write ≠ [[]]
  closed : (frontFirst leadingKeys l).Pairwise fun q _ => IsClosed q.write

instance (l : List Param) : Decidable (AreApart l) :=
  decidable_of_iff (l.map Param.write ≠ [[]] ∧
      (frontFirst leadingKeys l).Pairwise fun q _ => IsClosed q.write)
    ⟨fun h => ⟨h.1, h.2⟩, fun h => ⟨h.some, h.closed⟩⟩

/-- Only a single blank parameter is written as nothing. -/
theorem writtenParams_eq_nil_iff (hne : l ≠ []) :
    writtenParams l = [] ↔ l.map Param.write = [[]] := by
  have hperm := (frontFirst_perm leadingKeys l).map Param.write
  constructor
  · intro h
    have hsingle : (frontFirst leadingKeys l).map Param.write = [[]] := by
      unfold writtenParams at h
      cases hws : (frontFirst leadingKeys l).map Param.write with
      | nil => exact absurd (frontFirst_eq_nil_iff.mp (List.map_eq_nil_iff.mp hws)) hne
      | cons w ws =>
        rw [hws] at h
        cases ws with
        | nil => simpa [Text.join] using h
        | cons v ws => simp [Text.join] at h
    rw [hsingle] at hperm
    exact List.perm_singleton.mp hperm.symm
  · intro h
    rw [h] at hperm
    rw [writtenParams, List.perm_singleton.mp hperm]
    rfl

theorem length_params {p : Page} (h : p.raw ≠ []) :
    p.params.length = (segmentLengths p.seen).length := by
  have hlength := congrArg List.length (p.map_given_paramsFrom 0 0 (segmentLengths p.seen))
  rw [List.length_map, List.length_map] at hlength
  rw [Page.params_eq h, hlength, length_stretchesFrom]

/-- A page and what is seen of it have parameters together. -/
theorem params_eq_nil_iff {p : Page} (h : Hides true p.raw p.seen) :
    p.params = [] ↔ (Page.bare p.seen).params = [] := by
  rw [← List.length_eq_zero_iff, ← List.length_eq_zero_iff, h.params.length_eq]

/-- Pages that are read as many parameters, with a space and a bar between two, are told apart. -/
theorem isParted_of_length_joined {ps : List Page} (hpiece : ∀ u ∈ ps.map (·.seen), IsPiece u)
    (hraw : (Page.joined (Page.spaced ps)).raw ≠ [])
    (hle : ps.length ≤ (Page.joined (Page.spaced ps)).params.length) :
    IsParted (ps.map (·.seen)) := by
  have hspaced : ∀ u ∈ (Page.spaced ps).map (·.seen), IsPiece u := by
    intro u hu
    have hmem := List.mem_map_of_mem (f := nestingAfter) hu
    rw [map_nestingAfter_spaced] at hmem
    obtain ⟨v, hv, heq⟩ := List.mem_map.mp hmem
    rw [IsPiece, ← heq]
    exact hpiece v hv
  have hjoin : (Page.joined (Page.spaced ps)).seen =
      Text.join ['|'] ((Page.spaced ps).map (·.seen)) :=
    Page.text_joined Page.seen_append Page.seen_bare _
  refine (isParted_spaced ps).mp (isParted_of_length hspaced ?_)
  rw [← hjoin, ← length_params hraw, List.length_map, Page.length_spaced]
  exact hle

/-- **A parameter text written anew** is read as its parameters, with those in front that are put
there, if they can be told apart there, and else there are fewer. -/
theorem exists_rewritten {p : Page} (h : Hides true p.raw p.seen) (hne : p.params ≠ []) :
    ∃ J : Page, J.raw = writtenParams p.params ∧
      J.seen = writtenParams (Page.bare p.seen).params ∧
      (AreApart (Page.bare p.seen).params →
        J.params.map Param.given = (frontFirst leadingKeys p.params).map Param.given) ∧
      (p.params.length ≤ J.params.length → AreApart (Page.bare p.seen).params) := by
  have hne' : (Page.bare p.seen).params ≠ [] := fun hnil => hne ((params_eq_nil_iff h).mpr hnil)
  have hperm := frontFirst_perm leadingKeys p.params
  have hperm' := frontFirst_perm leadingKeys (Page.bare p.seen).params
  obtain ⟨ps, hraw, hseen, hps⟩ := exists_pages (alike_frontFirst h.params)
    (fun q hq => trimmed_parts_of_mem_params (hperm.subset hq))
    fun q hq => (isGiven_of_mem_params (hperm'.subset hq)).1
  have hpiece : ∀ u ∈ ps.map (·.seen), IsPiece u := by
    rw [hseen]
    intro u hu
    obtain ⟨q, hq, rfl⟩ := List.mem_map.mp hu
    exact (isGiven_of_mem_params (hperm'.subset hq)).2
  have hlength : ps.length = p.params.length := by
    rw [← hperm.length_eq, ← List.length_map Param.write, ← hraw, List.length_map]
  -- the text that is put together, as it is and as it is seen
  have hJraw : (Page.joined (Page.spaced ps)).raw = writtenParams p.params := by
    rw [Page.text_joined_spaced Page.raw_append Page.raw_bare, hraw]
    rfl
  have hJseen : (Page.joined (Page.spaced ps)).seen = writtenParams (Page.bare p.seen).params := by
    rw [Page.text_joined_spaced Page.seen_append Page.seen_bare, hseen]
    rfl
  have hempty : (Page.joined (Page.spaced ps)).raw = [] ↔
      (Page.bare p.seen).params.map Param.write = [[]] := by
    rw [← writtenParams_eq_nil_iff hne', ← hJseen, ← List.length_eq_zero_iff,
      ← List.length_eq_zero_iff, Page.aligned]
  have hclosed : (ps.map (·.seen)).Pairwise (fun u _ => IsClosed u) ↔
      (frontFirst leadingKeys (Page.bare p.seen).params).Pairwise fun q _ => IsClosed q.write := by
    rw [hseen, List.pairwise_map]
  refine ⟨_, hJraw, hJseen, ?_, ?_⟩
  · intro hapart
    have hpsne : ps ≠ [] := by
      intro hnil
      rw [hnil] at hlength
      exact hne (List.length_eq_zero_iff.mp hlength.symm)
    have hparted : IsParted (ps.map (·.seen)) := ⟨hpiece, hclosed.mpr hapart.closed⟩
    rw [Page.map_given_joined ((isParted_spaced ps).mpr hparted) (Page.spaced_ne_nil hpsne)
      (hempty.not.mpr hapart.some), map_given_spaced hps]
  · intro hle
    have hnonempty : (Page.joined (Page.spaced ps)).raw ≠ [] := by
      intro hnil
      rw [Page.params_nil hnil, List.length_nil] at hle
      exact hne (List.length_eq_zero_iff.mp (Nat.le_zero.mp hle))
    have hparted := isParted_of_length_joined hpiece hnonempty (hlength ▸ hle)
    exact ⟨hempty.not.mp hnonempty, hclosed.mp hparted.closed⟩

end CiteMarkup
