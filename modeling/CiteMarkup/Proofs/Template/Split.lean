import CiteMarkup.Chain.Writing
import CiteMarkup.Proofs.Page.Split
/-!
# Written templates

A template that is written out is found again, whatever stands behind it, if the braces in its
parameter text balance (`invocationRule_written`).  One without a tag or a template inside is
then a mark of its own, and a text that is read by itself (`selfContained_written`).
-/

namespace CiteMarkup

/-! ## 1. Pairs -/

section Pairs

variable {c : Char} {u v : Text}

theorem hasPair_of_append (h : hasPair c (u ++ v) = false) : hasPair c v = false := by
  induction u with
  | nil => exact h
  | cons a u ih =>
    refine ih ?_
    cases huv : u ++ v with
    | nil => rfl
    | cons b r =>
      rw [List.cons_append, huv, hasPair, Bool.or_eq_false_iff] at h
      exact h.2

theorem hasPair_eq_false_of_not_mem (h : c ∉ u) : hasPair c u = false := by
  induction u with
  | nil => rfl
  | cons a u ih =>
    obtain ⟨ha, hu⟩ := not_or.mp (List.mem_cons.not.mp h)
    cases u with
    | nil => rfl
    | cons b r => simp [hasPair, Ne.symm ha, ih hu]

/-- No pair goes over another character. -/
theorem hasPair_append_cons {s : Char} (hs : s ≠ c) :
    hasPair c (u ++ s :: v) = (hasPair c u || hasPair c v) := by
  have hright : hasPair c (s :: v) = hasPair c v := by
    cases v with
    | nil => rfl
    | cons b r => simp [hasPair, hs]
  induction u with
  | nil => exact hright
  | cons a u ih =>
    cases u with
    | nil =>
      rw [List.singleton_append, hasPair, hright]
      simp [hasPair, hs]
    | cons b r =>
      rw [List.cons_append, List.cons_append, hasPair, ← List.cons_append, ih, hasPair,
        Bool.or_assoc]

theorem startsWith_pair_eq_false (h : hasPair c u = false) (hlast : u.getLast? ≠ some c)
    (hu : u ≠ []) (rest : Text) : Text.startsWith (u ++ rest) [c, c] = false := by
  cases u with
  | nil => exact absurd rfl hu
  | cons a u =>
    cases u with
    | nil =>
      have ha : (c == a) = false := beq_false_of_ne fun h => hlast (by rw [h]; rfl)
      rw [Text.startsWith, List.singleton_append, List.isPrefixOf, ha, Bool.false_and]
    | cons b r =>
      rw [hasPair, Bool.or_eq_false_iff, Bool.and_eq_false_iff, decide_eq_false_iff_not,
        decide_eq_false_iff_not] at h
      rw [Text.startsWith, List.cons_append, List.isPrefixOf, List.cons_append, List.isPrefixOf]
      rcases h.1 with ha | hb
      · rw [beq_false_of_ne (Ne.symm ha), Bool.false_and]
      · rw [beq_false_of_ne (Ne.symm hb), Bool.false_and, Bool.and_false]

end Pairs

/-! ## 2. Braces that balance -/

/-- The number of templates that are open behind a text, `open_` being open before it; none if
it closes one that is not open, or leaves a brace that could be half of a closing pair. -/
def braceDepth : (open_ : Nat) → (inPair : Bool) → Text → Option Nat
  | n, false, [] => some n
  | _, true, [] => none
  | n, true, _ :: r => braceDepth n false r
  | n, false, c :: r =>
    if c = '{' && r.head? = some '{' then braceDepth (n + 1) true r
    else if c = '}' && r.head? = some '}' then
      if n = 0 then none else braceDepth (n - 1) true r
    else if c = '}' && r.isEmpty then none
    else braceDepth n false r

section Depth

variable {n m : Nat} {b : Bool} {u v : Text}

section Steps

variable {c : Char} {r : Text}

theorem braceDepth_of_open (hc : c = '{') (hr : r.head? = some '{') :
    braceDepth n false (c :: r) = braceDepth (n + 1) true r := by
  rw [braceDepth, if_pos (by simp [hc, hr])]

theorem braceDepth_of_close (hc : c = '}') (hr : r.head? = some '}') (hn : n ≠ 0) :
    braceDepth n false (c :: r) = braceDepth (n - 1) true r := by
  rw [braceDepth, if_neg (by simp [hc]), if_pos (by simp [hc, hr]), if_neg hn]

theorem braceDepth_of_neither (hopen : ¬ (c = '{' ∧ r.head? = some '{'))
    (hclose : ¬ (c = '}' ∧ (r.head? = some '}' ∨ r = []))) :
    braceDepth n false (c :: r) = braceDepth n false r := by
  rw [braceDepth, if_neg (by simpa using hopen), if_neg, if_neg]
  · simp only [Bool.and_eq_true, decide_eq_true_eq, List.isEmpty_iff]
    exact fun hlast => hclose ⟨hlast.1, .inr hlast.2⟩
  · simp only [Bool.and_eq_true, decide_eq_true_eq]
    exact fun hpair => hclose ⟨hpair.1, .inl hpair.2⟩

/-- What is done with a character in front of a text that balances. -/
theorem braceDepth_cases (h : braceDepth n false (c :: r) = some m) :
    (c = '{' ∧ r.head? = some '{' ∧ braceDepth (n + 1) true r = some m) ∨
      (c = '}' ∧ r.head? = some '}' ∧ n ≠ 0 ∧ braceDepth (n - 1) true r = some m) ∨
      (¬ (c = '{' ∧ r.head? = some '{') ∧ ¬ (c = '}' ∧ (r.head? = some '}' ∨ r = [])) ∧
        braceDepth n false r = some m) := by
  by_cases hopen : c = '{' ∧ r.head? = some '{'
  · rw [braceDepth_of_open hopen.1 hopen.2] at h
    exact .inl ⟨hopen.1, hopen.2, h⟩
  by_cases hclose : c = '}' ∧ r.head? = some '}'
  · by_cases hn : n = 0
    · rw [braceDepth, if_neg (by simpa using hopen), if_pos (by simpa using hclose), if_pos hn] at h
      cases h
    · rw [braceDepth_of_close hclose.1 hclose.2 hn] at h
      exact .inr (.inl ⟨hclose.1, hclose.2, hn, h⟩)
  by_cases hlast : c = '}' ∧ r = []
  · rw [hlast.1, hlast.2] at h
    cases h
  · have hneither : ¬ (c = '}' ∧ (r.head? = some '}' ∨ r = [])) := by
      rintro ⟨hc, hr | hr⟩
      · exact hclose ⟨hc, hr⟩
      · exact hlast ⟨hc, hr⟩
    rw [braceDepth_of_neither hopen hneither] at h
    exact .inr (.inr ⟨hopen, hneither, h⟩)

end Steps

/-- The second of two texts is read from the depth that the first one leads to. -/
theorem braceDepth_append (h : braceDepth n b u = some m) (hv : v.head? ≠ some '{') :
    braceDepth n b (u ++ v) = braceDepth m false v := by
  induction u generalizing n b with
  | nil =>
    cases b with
    | true => cases h
    | false =>
      obtain rfl := Option.some.inj h
      rfl
  | cons c u ih =>
    cases b with
    | true =>
      rw [braceDepth] at h
      rw [List.cons_append, braceDepth, ih h]
    | false =>
      cases u with
      | nil =>
        by_cases hc : c = '}'
        · simp [braceDepth, hc] at h
        · have hm : n = m := by simpa [braceDepth, hc] using h
          simp [braceDepth, hc, hv, hm]
      | cons d r =>
        rw [List.cons_append, braceDepth]
        rw [braceDepth] at h
        simp only [List.cons_append, List.head?_cons, Option.some.injEq, List.isEmpty_cons,
          Bool.and_false] at h ⊢
        by_cases hopen : (c = '{' && d = '{') = true
        · rw [if_pos hopen] at h ⊢
          exact ih h
        · rw [if_neg hopen] at h ⊢
          by_cases hclose : (c = '}' && d = '}') = true
          · rw [if_pos hclose] at h ⊢
            by_cases hn : n = 0
            · rw [if_pos hn] at h
              cases h
            · rw [if_neg hn] at h ⊢
              exact ih h
          · rw [if_neg hclose] at h ⊢
            exact ih h

/-- Braces that balance do not end an invocation around them. -/
theorem balancedLength?_of_braceDepth (h : braceDepth n b u = some m)
    (hv : v.head? ≠ some '{') :
    balancedLength? (n + 1) b (u ++ v) = (balancedLength? (m + 1) false v).map (· + u.length) := by
  induction u generalizing n b with
  | nil =>
    cases b with
    | true => cases h
    | false =>
      obtain rfl := Option.some.inj h
      simp
  | cons c u ih =>
    have more : ∀ x : Option Nat, (x.map (· + u.length)).map (· + 1) =
        x.map (· + (c :: u).length) := fun x => by
      rw [Option.map_map]
      rfl
    cases b with
    | true =>
      rw [braceDepth] at h
      rw [List.cons_append, balancedLength?, ih h, more]
    | false =>
      cases u with
      | nil =>
        by_cases hc : c = '}'
        · simp [braceDepth, hc] at h
        · have hm : n = m := by simpa [braceDepth, hc] using h
          simp [balancedLength?, hc, hv, hm]
      | cons d r =>
        rw [List.cons_append, balancedLength?]
        rw [braceDepth] at h
        simp only [List.cons_append, List.head?_cons, Option.some.injEq, List.isEmpty_cons,
          Bool.and_false] at h ⊢
        by_cases hopen : (c = '{' && d = '{') = true
        · rw [if_pos hopen] at h ⊢
          exact (congrArg _ (ih h)).trans (more _)
        · rw [if_neg hopen] at h ⊢
          by_cases hclose : (c = '}' && d = '}') = true
          · rw [if_pos hclose] at h ⊢
            by_cases hn : n = 0
            · rw [if_pos hn] at h
              cases h
            · rw [if_neg hn] at h
              have hsub : n + 1 - 1 = n - 1 + 1 := by omega
              rw [if_neg (by omega), hsub]
              exact (congrArg _ (ih h)).trans (more _)
          · rw [if_neg hclose] at h ⊢
            exact (congrArg _ (ih h)).trans (more _)

/-- A text without pairs of braces. -/
theorem braceDepth_of_hasPair (hopen : hasPair '{' u = false) (hclose : hasPair '}' u = false)
    (hlast : u.getLast? ≠ some '}') : braceDepth n false u = some n := by
  induction u with
  | nil => rfl
  | cons c u ih =>
    cases u with
    | nil =>
      have hc : c ≠ '}' := fun h => hlast (by rw [h]; rfl)
      simp [braceDepth, hc]
    | cons d r =>
      rw [hasPair, Bool.or_eq_false_iff] at hopen hclose
      have hrest := ih hopen.2 hclose.2 (by simpa using hlast)
      rw [braceDepth]
      simpa [hopen.1, hclose.1] using hrest

end Depth

/-! ## 3. The rule for invocations -/

/-- A name that a template can be written with: it is read as it is. -/
structure IsTemplateName (name : Text) : Prop where
  all : ∀ c ∈ name, isNameChar c = true
  visible : veil ∉ name

/-- A template as it is written: a name, and what stands between the name and the braces. -/
def templateText (name inner : Text) : Text := ['{', '{'] ++ (name ++ (inner ++ ['}', '}']))

/-- What can stand behind the name of a template: nothing, or a bar and parameters whose braces
balance. -/
structure IsInner (inner : Text) : Prop where
  head : ∀ c ∈ inner.head?, c = '|'
  braces : braceDepth 0 false inner = some 0

section Rule

variable {wanted : Text → Bool} {name inner : Text} {params : List Text} {u : Text}

theorem writeTemplate_eq (name : Text) (params : List Text) : writeTemplate name params =
    templateText name ('|' :: Text.join ['|'] params) := by
  simp [writeTemplate, templateText]

theorem isInner_params (h : braceDepth 0 false (Text.join ['|'] params) = some 0) :
    IsInner ('|' :: Text.join ['|'] params) := by
  refine ⟨by simp, ?_⟩
  rw [braceDepth]
  simpa using h

theorem heading?_written (hname : IsTemplateName name) (hinner : IsInner inner) (rest : Text) :
    heading? (templateText name inner ++ rest) = some ⟨name.length, !inner.isEmpty⟩ := by
  have hshape : templateText name inner ++ rest =
      '{' :: '{' :: (name ++ (inner ++ ('}' :: '}' :: rest))) := by
    simp [templateText]
  cases inner with
  | nil =>
    have htake : (name ++ '}' :: '}' :: rest).takeWhile isNameChar = name := by
      rw [List.takeWhile_append_of_pos hname.all, List.takeWhile_cons_of_neg (by decide),
        List.append_nil]
    rw [hshape]
    simp [heading?, after?, htake]
  | cons c r =>
    obtain rfl : c = '|' := hinner.head c rfl
    have htake : ∀ r, (name ++ '|' :: r).takeWhile isNameChar = name := fun r => by
      rw [List.takeWhile_append_of_pos hname.all, List.takeWhile_cons_of_neg (by decide),
        List.append_nil]
    rw [hshape]
    simp [heading?, after?, htake]

theorem canonical_written (hname : IsTemplateName name) (b : Bool) (r : Text) :
    (Heading.mk name.length b).canonical ('{' :: '{' :: (name ++ r)) = canonicalName name := by
  have hfilter : name.filter (· ≠ veil) = name := by
    rw [List.filter_eq_self]
    intro c hc
    have hne : c ≠ veil := fun h => hname.visible (h ▸ hc)
    simpa using hne
  simp only [Heading.canonical, List.drop_succ_cons, List.drop_zero, List.take_left, hfilter]

theorem length_templateText (name inner : Text) :
    (templateText name inner).length = name.length + inner.length + 4 := by
  simp only [templateText, List.length_append, List.length_cons, List.length_nil]
  omega

theorem balancedLength?_written (hname : ∀ c ∈ name, isNameChar c = true) (hinner : IsInner inner)
    (rest : Text) : balancedLength? 0 false (templateText name inner ++ rest) =
      some (templateText name inner).length := by
  have hbraces := balancedLength?_of_braceDepth hinner.braces (v := ['}', '}'] ++ rest) (by simp)
  have hend : balancedLength? 1 false (['}', '}'] ++ rest) = some 2 := by
    rw [List.cons_append, balancedLength?]
    simp
  rw [length_templateText, templateText, List.append_assoc, List.cons_append, balancedLength?,
    if_pos (by simp), List.singleton_append, balancedLength?, List.append_assoc, Nat.zero_add,
    balancedLength?_append hname, List.append_assoc, hbraces, hend]
  simp only [Option.map_some, Option.some.injEq]
  omega

/-- **A written template is found, whatever stands behind it**, if its name is wanted. -/
theorem invocationRule_written (hname : IsTemplateName name) (hinner : IsInner inner)
    (rest : Text) : invocationRule wanted (templateText name inner ++ rest) =
      if wanted (canonicalName name) then
        .found (templateText name inner).length ⟨name.length, !inner.isEmpty⟩
      else .jump 2 := by
  have hlength := balancedLength?_written hname.all hinner rest
  have hheading := heading?_written hname hinner rest
  have hshape : templateText name inner ++ rest =
      '{' :: '{' :: (name ++ (inner ++ ['}', '}'] ++ rest)) := by
    simp [templateText]
  have hstart : Text.startsWith (templateText name inner ++ rest) ['{', '{'] = true := by
    rw [hshape]
    rfl
  have hcanonical := canonical_written hname (!inner.isEmpty) (inner ++ ['}', '}'] ++ rest)
  rw [← hshape] at hcanonical
  simp only [invocationRule, hstart, hheading, hcanonical, hlength, if_true]

/-- A text without pairs of opening braces, that is not half of one either. -/
theorem Splits.of_unbraced (wanted : Text → Bool) (h : hasPair '{' u = false)
    (hlast : u.getLast? ≠ some '{') :
    Splits (invocationRule wanted) u ∧ scan (fun _ => invocationRule wanted) u = [] := by
  refine Splits.of_pass fun front back heq hback rest => ?_
  subst heq
  have hlast : back.getLast? ≠ some '{' := by
    rwa [List.getLast?_append_of_ne_nil _ hback] at hlast
  rw [invocationRule, startsWith_pair_eq_false (hasPair_of_append h) hlast hback]
  simp

/-- A written template of a wanted name splits off. -/
theorem Splits.of_written (hname : IsTemplateName name) (hinner : IsInner inner)
    (hw : wanted (canonicalName name) = true) :
    Splits (invocationRule wanted) (templateText name inner) ∧
      scan (fun _ => invocationRule wanted) (templateText name inner) =
        [⟨Span.ofLength 0 (templateText name inner).length, ⟨name.length, !inner.isEmpty⟩⟩] := by
  have hrule : ∀ rest, invocationRule wanted (templateText name inner ++ ([] ++ rest)) =
      .found (templateText name inner).length ⟨name.length, !inner.isEmpty⟩ := fun rest => by
    rw [List.nil_append, invocationRule_written hname hinner, if_pos hw]
  have h := Splits.of_verdict _ (by simp [templateText]) rfl hrule Splits.nil
  simpa [scan, scanFrom, Verdict.findings] using h

/-- A written template of another name splits off if what is inside does. -/
theorem Splits.of_unwanted (hname : IsTemplateName name) (hinner : IsInner inner)
    (hw : wanted (canonicalName name) = false)
    (hsplits : Splits (invocationRule wanted) (inner ++ ['}', '}'])) :
    Splits (invocationRule wanted) (templateText name inner) ∧
      scan (fun _ => invocationRule wanted) (templateText name inner) =
        (scan (fun _ => invocationRule wanted) (inner ++ ['}', '}'])).map
          (Found.shift (name.length + 2)) := by
  have hrule : ∀ rest, invocationRule wanted (['{', '{'] ++
      (name ++ (inner ++ ['}', '}']) ++ rest)) = .jump 2 := fun rest => by
    rw [← List.append_assoc, ← templateText, invocationRule_written hname hinner,
      if_neg (by simp [hw])]
  -- the name begins nothing
  have hnot : '{' ∉ name := fun hmem => absurd (hname.all _ hmem) (by decide)
  obtain ⟨hfront, hfrontScan⟩ := Splits.of_unbraced wanted (hasPair_eq_false_of_not_mem hnot)
    fun hlast => hnot (List.mem_of_getLast? hlast)
  have hscan := hfront (inner ++ ['}', '}'])
  rw [hfrontScan] at hscan
  have h := Splits.of_verdict _ (by simp) rfl hrule (hfront.append hsplits)
  refine ⟨h.1, h.2.trans ?_⟩
  rw [hscan]
  simp [Verdict.findings, Function.comp_def, Nat.add_comm]

end Rule

/-! ## 4. Texts of templates -/

section Written

variable {names : List Text} {name : Text} {params : List Text}

/-- A text that stands in a template as it is: it has no tag, no template, and no brace that
could close one. -/
structure IsPlainText (t : Text) : Prop where
  untagged : '<' ∉ t
  unopened : hasPair '{' t = false
  unclosed : hasPair '}' t = false
  last : t.getLast? ≠ some '}'

instance (t : Text) : Decidable (IsPlainText t) :=
  decidable_of_iff ('<' ∉ t ∧ hasPair '{' t = false ∧ hasPair '}' t = false ∧
    t.getLast? ≠ some '}') ⟨fun h => ⟨h.1, h.2.1, h.2.2.1, h.2.2.2⟩,
      fun h => ⟨h.untagged, h.unopened, h.unclosed, h.last⟩⟩

theorem isPlainText_append_cons {s : Char} {u v : Text} (hs : s ∉ ['<', '{', '}'])
    (hu : IsPlainText u) (hv : IsPlainText v) : IsPlainText (u ++ s :: v) := by
  simp only [List.mem_cons, List.not_mem_nil, or_false, not_or] at hs
  refine ⟨by simp [hu.untagged, hv.untagged, Ne.symm hs.1], ?_, ?_, ?_⟩
  · rw [hasPair_append_cons hs.2.1, hu.unopened, hv.unopened]
    rfl
  · rw [hasPair_append_cons hs.2.2, hu.unclosed, hv.unclosed]
    rfl
  · rw [List.getLast?_append_of_ne_nil _ (List.cons_ne_nil s v), List.getLast?_cons]
    cases hlast : v.getLast? with
    | none => simpa using hs.2.2
    | some c => simpa [hlast] using hv.last

theorem isPlainText_nil : IsPlainText [] := ⟨by simp, rfl, rfl, by simp⟩

/-- Texts that stand in a template as they are can stand in one together. -/
theorem isPlainText_join {segments : List Text} (h : ∀ s ∈ segments, IsPlainText s) :
    IsPlainText (Text.join ['|'] segments) := by
  induction segments with
  | nil => exact isPlainText_nil
  | cons s rest ih =>
    have hs := h s List.mem_cons_self
    have hrest := ih fun x hx => h x (List.mem_cons_of_mem _ hx)
    cases rest with
    | nil => simpa [Text.join] using hs
    | cons s' rest =>
      have hjoin : Text.join ['|'] (s :: s' :: rest) =
          s ++ '|' :: Text.join ['|'] (s' :: rest) := by simp [Text.join]
      rw [hjoin]
      exact isPlainText_append_cons (by decide) hs hrest

/-- A text without tags and templates is read by itself. -/
theorem SelfContained.of_unbraced (names : List Text) {u : Text} (h : '<' ∉ u)
    (hpair : hasPair '{' u = false) (hlast : u.getLast? ≠ some '{') : SelfContained names u :=
  (SelfContained.of_untagged h (Splits.of_unbraced _ hpair hlast).1
    (Splits.of_unbraced _ hpair hlast).1).1

theorem isTemplateName_of_mem (h : name ∈ [chainName, locatorName]) : IsTemplateName name := by
  have hall : ∀ n ∈ [chainName, locatorName], n.all isNameChar = true ∧ veil ∉ n := by decide
  obtain ⟨hchars, hveil⟩ := hall name h
  exact ⟨List.all_eq_true.mp hchars, hveil⟩

/-- The invocation that a written template is on a page of its own. -/
def writtenInvocation (name : Text) (params : List Text) : Template where
  span := Span.ofLength 0 (writeTemplate name params).length
  name := Text.trim name
  paramText := Text.join ['|'] params
  paramsStart := name.length + 3
  params := (Page.bare (Text.join ['|'] params)).params

theorem invocation_written (h : '<' ∉ writeTemplate name params) :
    (Page.ofText (writeTemplate name params)).invocation
      ⟨Span.ofLength 0 (writeTemplate name params).length, ⟨name.length, true⟩⟩ =
        writtenInvocation name params := by
  have hpage : Page.ofText (writeTemplate name params) = Page.bare (writeTemplate name params) := by
    simp only [Page.ofText, Page.bare, veil_of_untagged h]
  have hlength : (writeTemplate name params).length =
      name.length + 3 + (Text.join ['|'] params).length + 2 := by
    rw [writeTemplate_eq, length_templateText, List.length_cons]
    omega
  have hname : (writeTemplate name params).slice 2 (2 + name.length) = name := by
    rw [writeTemplate_eq]
    exact Text.slice_between _ _ _ rfl rfl
  have hinner : (writeTemplate name params).slice (2 + name.length + 1)
      ((writeTemplate name params).length - 2) = Text.join ['|'] params := by
    have hshape : writeTemplate name params =
        (['{', '{'] ++ name ++ ['|']) ++ (Text.join ['|'] params ++ ['}', '}']) := by
      simp [writeTemplate]
    rw [hlength, hshape]
    refine Text.slice_between _ _ _ ?_ ?_
    · simp only [List.length_append, List.length_cons, List.length_nil]
    · simp only [List.length_append, List.length_cons, List.length_nil]
      omega
  have hslice : (Page.bare (writeTemplate name params)).slice (2 + name.length + 1)
      ((writeTemplate name params).length - 2) = Page.bare (Text.join ['|'] params) := by
    simp only [Page.slice, Page.bare, hinner]
  rw [hpage]
  simp only [Page.invocation, Span.ofLength, Nat.zero_add, if_true, hslice, writtenInvocation]
  congr 1
  · exact congrArg Text.trim hname
  · omega

/-- **A written citation template is read by itself**, and it is the only mark in it. -/
theorem selfContained_citeTemplate (hname : IsTemplateName name)
    (hcited : isNameOf [chainName, locatorName] (canonicalName name) = true)
    (hlists : isNameOf names (canonicalName name) = false)
    (hplain : IsPlainText (Text.join ['|'] params)) :
    SelfContained names (writeTemplate name params) ∧
      (Page.ofText (writeTemplate name params)).tokens names =
        [Token.ofTemplate (writtenInvocation name params)] := by
  have hinner := isInner_params
    (braceDepth_of_hasPair (n := 0) hplain.unopened hplain.unclosed hplain.last)
  have huntagged : '<' ∉ writeTemplate name params := by
    have hn : '<' ∉ name := fun h => absurd (hname.all _ h) (by decide)
    simp [writeTemplate, hn, hplain.untagged]
  have hpair : hasPair '{' ('|' :: Text.join ['|'] params ++ ['}', '}']) = false := by
    have hbar := hasPair_append_cons (c := '{') (s := '|') (by decide) (u := [])
      (v := Text.join ['|'] params ++ ['}', '}'])
    rw [List.nil_append] at hbar
    rw [List.cons_append, hbar, hasPair_append_cons (by decide), hplain.unopened]
    rfl
  have hlast : ('|' :: Text.join ['|'] params ++ ['}', '}']).getLast? ≠ some '{' := by
    rw [List.getLast?_append_of_ne_nil _ (by decide)]
    decide
  obtain ⟨hsplit, hscan⟩ := Splits.of_unwanted hname hinner hlists
    (Splits.of_unbraced _ hpair hlast).1
  rw [(Splits.of_unbraced _ hpair hlast).2, ← writeTemplate_eq] at hscan
  obtain ⟨hcite, hciteScan⟩ := Splits.of_written hname hinner hcited
  rw [← writeTemplate_eq] at hsplit hcite hciteScan
  obtain ⟨hself, htags⟩ := SelfContained.of_untagged huntagged hsplit hcite
  refine ⟨hself, ?_⟩
  have hseen : (Page.ofText (writeTemplate name params)).seen = writeTemplate name params :=
    veil_of_untagged huntagged
  have hlistMarks : (Page.ofText (writeTemplate name params)).templates names = [] := by
    rw [Page.templates, Page.templatesWhere, hseen, hscan]
    rfl
  have htagMarks : (Page.ofText (writeTemplate name params)).tagMarks names = [] := by
    rw [Page.tagMarks, htags]
    rfl
  have hciteMarks : (Page.ofText (writeTemplate name params)).citeMarks names =
      [writtenInvocation name params] := by
    have hinvocation := invocation_written huntagged
    rw [Page.citeMarks, Page.templates, Page.templatesWhere, hseen, hciteScan, List.map_singleton,
      List.isEmpty_cons, Bool.not_false, hinvocation, htagMarks]
    simp [Page.inList, hlistMarks]
  rw [Page.tokens_eq, hlistMarks, htagMarks, hciteMarks]
  rfl

/-- A chain or a locator that is written under its usual name. -/
theorem selfContained_written (hname : name ∈ [chainName, locatorName])
    (hlists : isNameOf names (canonicalName name) = false)
    (hplain : IsPlainText (Text.join ['|'] params)) :
    SelfContained names (writeTemplate name params) ∧
      (Page.ofText (writeTemplate name params)).tokens names =
        [Token.ofTemplate (writtenInvocation name params)] :=
  selfContained_citeTemplate (isTemplateName_of_mem hname)
    (List.contains_iff_mem.mpr (List.mem_map_of_mem hname)) hlists hplain

end Written
end CiteMarkup
