import CiteMarkup.Proofs.Tag.Rewritten
import CiteMarkup.Proofs.Template.Braces
/-!
# Templates written anew

A citation template is written anew with its name trimmed and its parameters in another order.  Read
again, what is written is a template with the same name and the parameters in that order exactly if
they can be told apart there and the last of them does not take a brace of the end
(`Template.Renewable`).  If it does, the template ends one brace early (`CutShort`), and in all
other cases it is found again, with fewer parameters (`FoundAgain`).  Nothing else can happen
(`exists_isAnew`).  The page and what is seen of it are written anew side by side.
-/

namespace CiteMarkup

variable {b : Bool} {c : Char} {t u v w : Text}

/-! ## 1. Names -/

/-- What becomes one blank and one space in a name. -/
theorem squash_of_all {P : Char → Bool} {s : Char} (h : ∀ c ∈ w, P c = true) (hne : w ≠ []) :
    Text.squash P s w = [s] := by
  induction w with
  | nil => exact absurd rfl hne
  | cons c w ih =>
    have hrest := fun d hd => h d (List.mem_cons_of_mem c hd)
    rw [Text.squash, if_pos (h c List.mem_cons_self)]
    cases w with
    | nil => rfl
    | cons d w =>
      rw [if_pos (by simpa using hrest d List.mem_cons_self)]
      exact ih hrest (by simp)

/-- Behind a text such characters come to one at most. -/
theorem exists_squash_append {P : Char → Bool} {s : Char} (h : ∀ c ∈ w, P c = true) (u : Text) :
    ∃ v, (v = [] ∨ v = [s]) ∧ Text.squash P s (u ++ w) = Text.squash P s u ++ v := by
  by_cases hne : w = []
  · exact ⟨[], .inl rfl, by rw [hne, List.append_nil, List.append_nil]⟩
  induction u with
  | nil => exact ⟨[s], .inr rfl, squash_of_all h hne⟩
  | cons c u ih =>
    obtain ⟨v, hv, heq⟩ := ih
    by_cases hc : P c = true
    · cases u with
      | nil =>
        have hall : ∀ d ∈ c :: w, P d = true := List.forall_mem_cons.mpr ⟨hc, h⟩
        refine ⟨[], .inl rfl, ?_⟩
        rw [List.singleton_append, squash_of_all hall (by simp),
          squash_of_all (by simpa using hc) (by simp),
          List.append_nil]
      | cons d u =>
        have hstep : ∀ x, Text.squash P s (c :: d :: x) =
            if P d then Text.squash P s (d :: x) else s :: Text.squash P s (d :: x) := by
          intro x
          conv_lhs => rw [Text.squash, if_pos hc, List.head?_cons, Option.any_some]
        refine ⟨v, hv, ?_⟩
        rw [List.cons_append] at heq
        rw [List.cons_append, List.cons_append, hstep, hstep, heq]
        split
        · rfl
        · rfl
    · refine ⟨v, hv, ?_⟩
      rw [List.cons_append, Text.squash, if_neg hc, heq, Text.squash, if_neg hc, List.cons_append]

/-- **Blanks around a name do not belong to it.** -/
theorem canonicalName_blanks (hv : ∀ c ∈ v, isBlank c = true) (hw : ∀ c ∈ w, isBlank c = true)
    (u : Text) : canonicalName (v ++ (u ++ w)) = canonicalName u := by
  have hspace : ∀ x : Text, x = [] ∨ x = [' '] → ∀ c ∈ x, isBlank c = true := by
    rintro x (rfl | rfl)
    · simp
    · exact isBlank_of_mem_space
  have hfront : ∀ x : Text, Text.trim (Text.squash (fun c => isBlank c || c = '_') ' ' (v ++ x)) =
      Text.trim (Text.squash (fun c => isBlank c || c = '_') ' ' x) := by
    intro x
    induction v with
    | nil => rfl
    | cons c v ih =>
      have hc := hv c List.mem_cons_self
      rw [← ih fun d hd => hv d (List.mem_cons_of_mem _ hd), List.cons_append, Text.squash,
        if_pos (by simp [hc])]
      split
      · rfl
      · exact congrArg Text.trimEnd (trimStart_append_of_blank (hspace [' '] (.inr rfl)) _)
  obtain ⟨x, hx, heq⟩ :=
    exists_squash_append (P := fun c => isBlank c || c = '_') (s := ' ') (w := w)
    (fun c hc => by simp [hw c hc]) u
  rw [canonicalName, hfront, heq, trim_append_of_blank (hspace x hx), canonicalName]

/-! ## 2. Cutting a page -/

section Cutting

variable {p q : Page}

/-- A page can be cut in front of a character that is seen. -/
theorem Hides.cut_before (h : Hides b (p.append q).raw (p.append q).seen)
    (hc : IsSeen c) (hq : q.seen.head? = some c) :
    Hides true p.raw p.seen ∧ Hides b q.raw q.seen := by
  obtain ⟨r, hr⟩ := List.head?_eq_some_iff.mp hq
  obtain ⟨front, back, hraw, hfront, hback⟩ := h.cut hc (by rw [Page.seen_append, hr])
  have hlength : p.raw.length = front.length := by rw [← p.aligned, hfront.length_eq]
  obtain ⟨rfl, hqraw⟩ := List.append_inj hraw hlength
  rw [hqraw, hr]
  exact ⟨hfront, .shown hc.1 hback⟩

/-- A page can be cut behind a character that is seen. -/
theorem Hides.cut_behind (h : Hides b (p.append q).raw (p.append q).seen)
    (hc : IsSeen c) (hp : p.seen.getLast? = some c) :
    Hides true p.raw p.seen ∧ Hides b q.raw q.seen := by
  obtain ⟨r, hr⟩ := List.getLast?_eq_some_iff.mp hp
  have hseen : (p.append q).seen = r ++ c :: q.seen := by
    rw [Page.seen_append, hr, List.append_assoc, List.singleton_append]
  obtain ⟨front, back, hraw, hfront, hback⟩ := h.cut hc hseen
  have hraw' : p.raw ++ q.raw = (front ++ [c]) ++ back := by simpa using hraw
  have hlength : p.raw.length = (front ++ [c]).length := by
    rw [← p.aligned, hr, List.length_append, List.length_append, hfront.length_eq]
  obtain ⟨hpraw, rfl⟩ := List.append_inj hraw' hlength
  rw [hpraw, hr]
  exact ⟨hfront.append (.shown hc.1 .nil), hback⟩

/-- A page that is seen without a veil is seen as it is. -/
theorem Page.eq_bare (h : Hides b p.raw p.seen) (hseen : p.seen = t) (ht : veil ∉ t) :
    p = Page.bare t := by
  subst hseen
  rcases h.eq_or_mem with ⟨heq, -⟩ | ⟨-, hveil⟩
  · obtain ⟨raw, seen, aligned⟩ := p
    obtain rfl : raw = seen := heq
    rfl
  · exact absurd hveil ht

end Cutting

/-! ## 3. Blocks -/

namespace Page

variable {wanted : Text → Bool} {name inner N I : Page} {p : Page} {n s : Text}

/-- A template with a name and a parameter text. -/
def block (name inner : Page) : Page :=
  (bare ['{', '{']).append (name.append ((bare ['|']).append (inner.append (bare ['}', '}']))))

theorem raw_block (name inner : Page) :
    (block name inner).raw = templateText name.raw ('|' :: inner.raw) := by
  simp [block, templateText]

theorem seen_block (name inner : Page) :
    (block name inner).seen = templateText name.seen ('|' :: inner.seen) := by
  simp [block, templateText]

/-- What is seen of a template is the template of what is seen. -/
theorem bare_block (name inner : Page) :
    bare (block name inner).seen = block (bare name.seen) (bare inner.seen) := rfl

/-- **A template with a bar has a name and a parameter text**, each of which hides whole parts. -/
theorem exists_block (h : Hides true p.raw p.seen) (hseen : p.seen = templateText n ('|' :: s)) :
    ∃ N I : Page, p = block N I ∧ N.seen = n ∧ I.seen = s ∧
      Hides true N.raw N.seen ∧ Hides true I.raw I.seen := by
  obtain ⟨A, p₁, rfl, hA, h₁⟩ := exists_append hseen
  obtain ⟨N, p₂, rfl, hN, h₂⟩ := exists_append h₁
  obtain ⟨B, p₃, rfl, hB, h₃⟩ := exists_append (p := p₂) (u := ['|']) (v := s ++ ['}', '}']) h₂
  obtain ⟨I, C, rfl, hI, hC⟩ := exists_append h₃
  obtain ⟨hAh, hrest⟩ := h.cut_behind (c := '{') (by decide) (by rw [hA]; rfl)
  obtain ⟨hNh, hrest⟩ := hrest.cut_before (c := '|') (by decide) (by rw [seen_append, hB]; rfl)
  obtain ⟨hBh, hrest⟩ := hrest.cut_behind (c := '|') (by decide) (by rw [hB]; rfl)
  obtain ⟨hIh, hCh⟩ := hrest.cut_before (c := '}') (by decide) (by rw [hC]; rfl)
  obtain rfl := eq_bare hAh hA (by decide)
  obtain rfl := eq_bare hBh hB (by decide)
  obtain rfl := eq_bare hCh hC (by decide)
  exact ⟨N, I, rfl, hN, hI, hNh, hIh⟩

/-- The template of a block. -/
theorem templatesWhere_eq (h : IsBlock wanted N.seen ('|' :: I.seen) (block N I).seen) :
    ∃ x : Template, (block N I).templatesWhere wanted = [x] ∧
      x.span = Span.ofLength 0 (block N I).raw.length ∧ x.name = Text.trim N.raw ∧
      x.params = I.params := by
  have hlength : (block N I).seen.length = 2 + N.seen.length + 1 + I.raw.length + 2 := by
    rw [seen_block, length_templateText, List.length_cons, I.aligned]
    omega
  have hname : (block N I).raw.slice 2 (2 + N.seen.length) = N.raw := by
    rw [raw_block]
    exact Text.slice_between _ _ _ rfl (by rw [N.aligned]; rfl)
  have hinner : (block N I).slice (2 + N.seen.length + 1) ((block N I).seen.length - 2) = I := by
    have hassoc : block N I = ((bare ['{', '{']).append (N.append (bare ['|']))).append
        (I.append (bare ['}', '}'])) := by
      simp [block, append]
    have hfront : ((bare ['{', '{']).append (N.append (bare ['|']))).raw.length =
        2 + N.seen.length + 1 := by
      simp only [raw_append, raw_bare, List.length_append,
        List.length_cons, List.length_nil, N.aligned]
      omega
    have hslice := slice_append_right (p := (bare ['{', '{']).append (N.append (bare ['|'])))
      (q := I.append (bare ['}', '}'])) 0 I.raw.length
    rw [hfront, Nat.add_zero, slice_append_left (Nat.le_refl _), slice_all] at hslice
    rw [hlength, hassoc, Nat.add_sub_cancel, hslice]
  refine ⟨(block N I).invocation ⟨Span.ofLength 0 (block N I).seen.length, ⟨N.seen.length, true⟩⟩,
    ?_, ?_, ?_, ?_⟩
  · rw [templatesWhere, h.splits.2]
    rfl
  · rw [← (block N I).aligned]
    rfl
  · simp only [invocation, Span.start_ofLength, Nat.zero_add, hname]
  · simp only [invocation, Span.start_ofLength, Span.stop_ofLength, Nat.zero_add, if_true, hinner]

end Page

/-! ## 4. Braces of parameters -/

/-- What a segment says has the braces of the segment. -/
theorem braceDepth_given (t : Text) (n : Nat) :
    braceDepth n false (Param.writeGiven (Page.bare t).given ++ ['|']) =
      braceDepth n false (t ++ ['|']) := by
  cases he : equalsSign? t with
  | none =>
    rw [Page.given_bare_of_none he]
    exact braceDepth_trim_bar n t
  | some e =>
    obtain ⟨u, v, rfl, rfl, hu⟩ := equalsSign?_eq_some.mp he
    have hcut : ∀ x y : Text, braceDepth n false (x ++ '=' :: y) =
        (braceDepth n false (x ++ ['|'])).bind fun m => braceDepth m false y :=
      fun x y => braceDepth_cut (by decide) (by simp) y
    rw [Page.given_bare_of_sign hu, Param.writeGiven, List.append_assoc, List.append_assoc,
      List.cons_append, List.cons_append, hcut, hcut, braceDepth_trim_bar]
    simp only [braceDepth_trim_bar]

/-- **A parameter has its braces to itself**, with a bar behind it, if those of the text balance. -/
theorem braceDepth_write {q : Param} (hq : q ∈ (Page.bare t).params)
    (ht : braceDepth 0 false t = some 0) : braceDepth 0 false (q.write ++ ['|']) = some 0 := by
  obtain ⟨u, hu, heq⟩ := exists_segment hq
  obtain ⟨hjoin, hparted⟩ := isParted_segments t
  have hbar : braceDepth 0 false (t ++ ['|']) = some 0 := by
    rw [braceDepth_append_cons (by decide) ht]
    rfl
  rw [← hjoin] at hbar
  rw [Param.write_eq, ← heq, braceDepth_given]
  exact braceDepth_of_isParted hparted hbar u hu

/-! ## 5. Templates that can be written anew -/

/-- A template can be written anew: its parameters can be told apart in the new order, and the last
of them does not end with a brace too many. -/
structure Template.Renewable (m : Template) : Prop where
  apart : AreApart m.params
  last : ∀ q ∈ (frontFirst leadingKeys m.params).getLast?, braceDepth 0 false q.write = some 0

instance (m : Template) : Decidable m.Renewable :=
  decidable_of_iff (AreApart m.params ∧
      ∀ q ∈ (frontFirst leadingKeys m.params).getLast?, braceDepth 0 false q.write = some 0)
    ⟨fun h => ⟨h.1, h.2⟩, fun h => ⟨h.apart, h.last⟩⟩

/-- What a page becomes if its citation templates are written anew. -/
def Page.renewed (p : Page) : Text := (p.templatesWhere isCitationName).foldr renewIn p.raw

/-- Only the last brace of a parameter text written anew can be one too many. -/
theorem braceDepth_writtenParams {l : List Param} (hne : l ≠ [])
    (h : ∀ q ∈ l, braceDepth 0 false (q.write ++ ['|']) = some 0) :
    ∃ q ∈ l, (frontFirst leadingKeys l).getLast? = some q ∧
      ∀ v, braceDepth 0 false (writtenParams l ++ v) = braceDepth 0 false (q.write ++ v) := by
  have hperm := frontFirst_perm leadingKeys l
  have hfront : frontFirst leadingKeys l ≠ [] := frontFirst_eq_nil_iff.not.mpr hne
  refine ⟨(frontFirst leadingKeys l).getLast hfront, hperm.subset (List.getLast_mem hfront),
    List.getLast?_eq_some_getLast hfront, fun v => ?_⟩
  have hall : ∀ u ∈ (frontFirst leadingKeys l).map Param.write,
      braceDepth 0 false (u ++ ['|']) = some 0 := by
    intro u hu
    obtain ⟨q, hq, rfl⟩ := List.mem_map.mp hu
    exact h q (hperm.subset hq)
  rw [writtenParams, braceDepth_join_spaced hall (by simpa using hfront), List.getLast_map]

namespace Page

variable {N I : Page} {p : Page} {x : Template}

/-- A page whose one citation template has no parameters stays as it is. -/
theorem renewed_of_params_nil (hx : p.templatesWhere isCitationName = [x]) (h : x.params = []) :
    p.renewed = p.raw := by
  rw [renewed, hx, List.foldr_cons, List.foldr_nil, renewIn, h]
  rfl

/-- A page that is one citation template with parameters becomes what is written for it. -/
theorem renewed_of_params_ne_nil (hx : p.templatesWhere isCitationName = [x])
    (hspan : x.span = Span.ofLength 0 p.raw.length) (h : x.params ≠ []) :
    p.renewed = x.writtenAnew := by
  have hsome : x.params.isEmpty = false := List.isEmpty_eq_false_iff.mpr h
  rw [renewed, hx, List.foldr_cons, List.foldr_nil, renewIn, hsome, hspan, Span.start_ofLength,
    Span.stop_ofLength, Nat.zero_add, List.take_zero, List.drop_length]
  simp

/-- A block written anew. -/
theorem renewed_block (h : IsBlock isCitationName N.seen ('|' :: I.seen) (block N I).seen)
    (hne : I.params ≠ []) : (block N I).renewed =
      templateText (Text.trim N.raw ++ [' ']) ('|' :: writtenParams I.params) := by
  obtain ⟨x, hx, hspan, hname, hparams⟩ := templatesWhere_eq h
  rw [renewed_of_params_ne_nil hx hspan (hparams ▸ hne), Template.writtenAnew, hname, hparams]
  simp [templateText, writtenParams]

end Page

/-! ## 6. The template of a block, written anew -/

section Renewed

variable {c' N I : Page} {p : Page} {x x' y : Template} {n i : Text}

/-- The name of a template written anew is wanted as it was. -/
theorem canonicalName_trim (n : Text) :
    canonicalName ((Text.trim n ++ [' ']).filter (· ≠ veil)) =
      canonicalName (n.filter (· ≠ veil)) := by
  obtain ⟨front, back, hn, -, hfront, hback⟩ := Text.exists_trim n
  have hsub : ∀ {w : Text}, (∀ c ∈ w, isBlank c = true) →
      ∀ c ∈ w.filter (· ≠ veil), isBlank c = true := by
    intro w hw c hc
    exact hw c (List.mem_filter.mp hc).1
  conv_rhs => rw [hn, List.append_assoc, List.filter_append, List.filter_append,
    canonicalName_blanks (hsub hfront) (hsub hback)]
  rw [List.filter_append]
  exact canonicalName_blanks (v := []) (by simp) (hsub isBlank_of_mem_space) _

/-- A template that has been written anew is found again, with the same name.  It has the same
parameters, with those in front that are put there, and is written anew as itself, if it can be
written anew; and if it has as many parameters it can be. -/
def FoundAgain (x x' : Template) (c' : Page) : Prop :=
  ∃ n i y, IsBlock isCitationName n i c'.seen ∧ c'.templatesWhere isCitationName = [y] ∧
    y.name = x.name ∧
    (x'.Renewable → y.params.map Param.given = (frontFirst leadingKeys x.params).map Param.given ∧
      c'.renewed = c'.raw) ∧
    (x.params.length ≤ y.params.length → x'.Renewable)

/-- A template that has been written anew is found again without its last brace. -/
def CutShort (c' : Page) : Prop :=
  ∃ n i u, c'.seen = u ++ ['}'] ∧ IsBlock isCitationName n i u

/-- A page that is one citation template, written anew. -/
structure Page.IsAnew (p c' : Page) : Prop where
  raw : c'.raw = p.renewed
  seen : c'.seen = (bare p.seen).renewed
  outcome : ∃ x x', p.templatesWhere isCitationName = [x] ∧
    (bare p.seen).templatesWhere isCitationName = [x'] ∧
    (FoundAgain x x' c' ∨ ¬ x'.Renewable ∧ CutShort c')

/-- A template without parameters stays as it is. -/
theorem isAnew_of_params_nil (h : IsBlock isCitationName n i p.seen)
    (hx : p.templatesWhere isCitationName = [x]) (hnil : x.params = [])
    (hx' : (Page.bare p.seen).templatesWhere isCitationName = [x']) (hnil' : x'.params = []) :
    p.IsAnew p := by
  have hrenewable : x'.Renewable := by
    refine ⟨⟨?_, ?_⟩, ?_⟩
    · simp [hnil']
    · rw [hnil']
      exact .nil
    · rw [hnil']
      intro q hq
      cases hq
  have hsame := Page.renewed_of_params_nil hx hnil
  refine ⟨hsame.symm, (Page.renewed_of_params_nil hx' hnil').symm, x, x', hx, hx', .inl ?_⟩
  exact ⟨n, i, x, h, hx, rfl, fun _ => ⟨by rw [hnil]; rfl, hsame⟩, fun _ => hrenewable⟩

/-- A template without a bar has no parameters. -/
theorem exists_of_noBar (h : IsBlock isCitationName n [] p.seen) :
    ∃ x, p.templatesWhere isCitationName = [x] ∧ x.params = [] := by
  refine ⟨p.invocation ⟨Span.ofLength 0 p.seen.length, ⟨n.length, false⟩⟩, ?_, ?_⟩
  · rw [Page.templatesWhere, h.splits.2]
    rfl
  · refine Page.params_nil ?_
    simp only [Bool.false_eq_true, if_false, Page.raw_slice, Text.slice_self]

/-- A name with a space behind it can be written. -/
theorem isNameChar_trim (hn : ∀ c ∈ n, isNameChar c = true) :
    ∀ c ∈ Text.trim n ++ [' '], isNameChar c = true := by
  obtain ⟨front, back, hparts, -⟩ := Text.exists_trim n
  intro c hc
  rcases List.mem_append.mp hc with hc | hc
  · refine hn c ?_
    rw [hparts]
    simp [hc]
  · obtain rfl := List.mem_singleton.mp hc
    decide

/-- Behind the name of a block, with a space, each parameter text that balances makes a block. -/
theorem IsBlock.anew (h : IsBlock isCitationName n i t) (hv : braceDepth 0 false v = some 0) :
    IsBlock isCitationName (Text.trim n ++ [' ']) ('|' :: v)
      (templateText (Text.trim n ++ [' ']) ('|' :: v)) := by
  refine ⟨rfl, isNameChar_trim h.plain, ?_, by simp, ?_⟩
  · rw [canonicalName_trim]
    exact h.wanted
  · rw [braceDepth_cons (by decide), hv]

/-- **A block written anew is found again** if its parameter text still balances. -/
theorem foundAgain_block {N' J : Page}
    (hnew : IsBlock isCitationName N'.seen ('|' :: J.seen) (Page.block N' J).seen)
    (hne : I.params ≠ []) (hN : N'.raw = Text.trim N.raw ++ [' '])
    (hJ : J.raw = writtenParams I.params) (hname : x.name = Text.trim N.raw)
    (hparams : x.params = I.params)
    (hread : x'.Renewable →
      J.params.map Param.given = (frontFirst leadingKeys I.params).map Param.given)
    (hrenewable : I.params.length ≤ J.params.length → x'.Renewable) :
    FoundAgain x x' (Page.block N' J) := by
  obtain ⟨y, hy, -, hyname, hyparams⟩ := Page.templatesWhere_eq hnew
  have htrim : Text.trim N'.raw = Text.trim N.raw := by
    rw [hN, trim_append_of_blank isBlank_of_mem_space, (Text.trimmed_trim N.raw).trim_eq]
  refine ⟨_, _, y, hnew, hy, ?_, fun hx' => ?_, fun hle => ?_⟩
  · rw [hyname, hname, htrim]
  · have hgiven := hread hx'
    refine ⟨by rw [hyparams, hparams, hgiven], ?_⟩
    have hJne : J.params ≠ [] := by
      intro hnil
      rw [hnil] at hgiven
      exact hne (frontFirst_eq_nil_iff.mp (List.map_eq_nil_iff.mp hgiven.symm))
    rw [Page.renewed_block hnew hJne, Page.raw_block, htrim, ← hN, writtenParams,
      map_write_frontFirst hgiven, hJ]
    rfl
  · rw [hparams, hyparams] at hle
    exact hrenewable hle

/-- **A block with parameters, written anew**, is found again or cut short. -/
theorem exists_isAnew_block
    (h : IsBlock isCitationName N.seen ('|' :: I.seen) (Page.block N I).seen)
    (hN : Hides true N.raw N.seen) (hI : Hides true I.raw I.seen) (hne : I.params ≠ []) :
    ∃ c', (Page.block N I).IsAnew c' := by
  obtain ⟨x, hx, -, hname, hparams⟩ := Page.templatesWhere_eq h
  obtain ⟨x', hx', -, -, hparams'⟩ :=
    Page.templatesWhere_eq (N := Page.bare N.seen) (I := Page.bare I.seen) h
  have hne' : (Page.bare I.seen).params ≠ [] := fun hnil => hne ((params_eq_nil_iff hI).mpr hnil)
  obtain ⟨J, hJraw, hJseen, hread, hapart⟩ := exists_rewritten hI hne
  obtain ⟨N', hNraw, hNseen⟩ : ∃ N' : Page,
      N'.raw = Text.trim N.raw ++ [' '] ∧ N'.seen = Text.trim N.seen ++ [' '] := by
    refine ⟨⟨Text.trim N.raw ++ [' '], Text.trim N.seen ++ [' '], ?_⟩, rfl, rfl⟩
    rw [List.length_append, List.length_append, hN.trim.length_eq]
  have hraw : (Page.block N' J).raw = (Page.block N I).renewed := by
    rw [Page.renewed_block h hne, Page.raw_block, hNraw, hJraw]
  have hseen : (Page.block N' J).seen = (Page.bare (Page.block N I).seen).renewed := by
    rw [Page.bare_block, Page.renewed_block (N := Page.bare N.seen) (I := Page.bare I.seen) h hne',
      Page.seen_block, hNseen, hJseen]
    rfl
  refine ⟨Page.block N' J, hraw, hseen, x, x', hx, hx', ?_⟩
  -- only the last brace can be one too many
  have hbraces : braceDepth 0 false I.seen = some 0 := by
    rw [← h.inner.braces, braceDepth_cons (by decide)]
  obtain ⟨q, hq, hlast, hdepth⟩ :=
    braceDepth_writtenParams hne' fun q hq => braceDepth_write hq hbraces
  rw [← hJseen] at hdepth
  have hend : braceDepth 0 false J.seen = braceDepth 0 false q.write := by
    simpa only [List.append_nil] using hdepth []
  have hbar : braceDepth 0 false (J.seen ++ ['|']) = some 0 := by
    rw [hdepth, braceDepth_write hq hbraces]
  rcases braceDepth_of_bar (by simp) hbar with hbalanced | ⟨v, hv, hbalanced⟩
  · left
    have hnew : IsBlock isCitationName N'.seen ('|' :: J.seen) (Page.block N' J).seen := by
      rw [Page.seen_block, hNseen]
      exact h.anew hbalanced
    refine foundAgain_block hnew hne hNraw hJraw hname hparams ?_ ?_
    · exact fun hrenewable => hread (hparams' ▸ hrenewable.apart)
    · intro hle
      refine ⟨hparams' ▸ hapart hle, ?_⟩
      rw [hparams']
      intro q' hq'
      obtain rfl := Option.some.inj (hlast.symm.trans hq')
      rw [← hend, hbalanced]
  · right
    refine ⟨fun hrenewable => ?_, N'.seen, _, _, ?_, hNseen ▸ h.anew hbalanced⟩
    · have hno : braceDepth 0 false (v ++ ['}']) = none := by
        rw [braceDepth_append hbalanced (by simp)]
        rfl
      have hyes := hrenewable.last q (hparams' ▸ hlast)
      rw [← hend, hv, hno] at hyes
      cases hyes
    · rw [Page.seen_block, hv]
      simp [templateText]

/-- **A template written anew** is found again or cut short. -/
theorem exists_isAnew (h : IsBlock isCitationName n i p.seen) (hp : Hides true p.raw p.seen) :
    ∃ c', p.IsAnew c' := by
  cases i with
  | nil =>
    obtain ⟨x, hx, hnil⟩ := exists_of_noBar h
    obtain ⟨x', hx', hnil'⟩ := exists_of_noBar (p := Page.bare p.seen) h
    exact ⟨p, isAnew_of_params_nil h hx hnil hx' hnil'⟩
  | cons c s =>
    obtain rfl : c = '|' := h.inner.head c rfl
    obtain ⟨N, I, rfl, rfl, rfl, hN, hI⟩ := Page.exists_block hp h.text
    by_cases hne : I.params = []
    · obtain ⟨x, hx, -, -, hparams⟩ := Page.templatesWhere_eq h
      obtain ⟨x', hx', -, -, hparams'⟩ :=
        Page.templatesWhere_eq (N := Page.bare N.seen) (I := Page.bare I.seen) h
      have hnil' := hparams'.trans ((params_eq_nil_iff hI).mp hne)
      exact ⟨_, isAnew_of_params_nil h hx (hparams.trans hne) hx' hnil'⟩
    · exact exists_isAnew_block h hN hI hne

end Renewed
end CiteMarkup
