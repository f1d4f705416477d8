import CiteMarkup.Proofs.Reference.Written
import CiteMarkup.Proofs.Template.Brackets
import CiteMarkup.Proofs.Transform.Lists
/-!
# Rebuilt output lists, read again

An output list that can be written from segments is rebuilt by writing one segment anew, adding
one or leaving one out (`updated_listText`).  What it is rebuilt to is such a list again, with the
same group, and gives the definitions that it got 
-/

namespace CiteMarkup

/-! ## 1. The label of a parameter -/

/-- The key under which a list holds its definitions. -/
def refsKey : Text := "refs".toList

/-- The label in front of a sign: no bracket and no separator stands in it, and nothing that
begins a tag. -/
structure IsRefsLabel (u : Text) : Prop where
  label : IsLabel u
  untagged : '<' ∉ u
  key : Text.lower (Text.trim u) = refsKey

section Labels

variable {c : Char} {s t u : Text} {e : Nat}

/-- The characters that mean something in a template. -/
def listSigns : List Char := ['<', '|', '=', '{', '[', '}', ']']

/-- A sign is its own small form. -/
theorem isOwnLower_of_sign (hc : c ∈ listSigns) : IsOwnLower c := by
  have hall :
      listSigns.all (fun c => c.toNat ≠ 0x130 ∧ c.toNat ≠ 0x3A3 ∧ lowerChar c = c) = true := by
    decide
  exact of_decide_eq_true (List.all_eq_true.mp hall c hc)

/-- What is read as the key of the definitions has no sign in it. -/
theorem isRefsLabel_of_key (h : Text.lower (Text.trim u) = refsKey) : IsRefsLabel u := by
  have hno : ∀ c ∈ listSigns, c ∉ u := by
    intro c hc hmem
    have hall : listSigns.all (fun c => isBlank c = false ∧ c ∉ refsKey) = true := by decide
    obtain ⟨hblank, hkey⟩ := of_decide_eq_true (List.all_eq_true.mp hall c hc)
    have hlower : c ∈ Text.lower (Text.trim u) :=
      mem_lowerFrom (isOwnLower_of_sign hc) (Text.mem_trim hmem hblank) []
    exact hkey (h ▸ hlower)
  exact ⟨fun c hc hmem => hno c (List.mem_cons_of_mem _ hmem) hc,
    hno '<' List.mem_cons_self, h⟩

theorem isRefsLabel_refsKey : IsRefsLabel refsKey := isRefsLabel_of_key (by decide)

theorem IsRefsLabel.sign_not_mem (h : IsRefsLabel u) : '=' ∉ u := fun hmem =>
  h.label _ hmem (by decide)

/-- A segment with a sign is its label, the sign and the rest. -/
theorem eq_of_equalsSign? (h : equalsSign? s.veil = some e) :
    s = s.take e ++ '=' :: s.drop (e + 1) ∧ e < s.length := by
  have hget : s[e]? = some '=' :=
    (getElem?_veil (getElem?_of_equalsSign? h)).resolve_right (by decide)
  obtain ⟨hlt, hsign⟩ := List.getElem?_eq_some_iff.mp hget
  refine ⟨?_, hlt⟩
  rw [← hsign, List.getElem_cons_drop, List.take_append_drop]

theorem indexOf?_append {r : Text} (h : c ∉ u) :
    Text.indexOf? [c] (u ++ c :: r) = some u.length := by
  induction u with
  | nil => simp [Text.indexOf?, Text.startsWith]
  | cons d u ih =>
    obtain ⟨hd, hu⟩ := not_or.mp (List.mem_cons.not.mp h)
    have hstart : Text.startsWith (d :: (u ++ c :: r)) [c] = false := by
      rw [Text.startsWith, List.isPrefixOf, beq_false_of_ne hd, Bool.false_and]
    rw [List.cons_append, Text.indexOf?, hstart, ih hu]
    rfl

/-- A parameter with definitions. -/
theorem veil_refs (h : IsRefsLabel u) (value : Text) :
    Text.veil (u ++ '=' :: value) = u ++ '=' :: value.veil := by
  have huntagged : '<' ∉ u ++ ['='] := by simp [h.untagged]
  have hveil := veil_append_of_untagged huntagged value
  simpa using hveil

theorem equalsSign?_refs (h : IsRefsLabel u) (value : Text) :
    equalsSign? (Text.veil (u ++ '=' :: value)) = some u.length := by
  rw [veil_refs h, equalsSign?_label h.label]

end Labels

/-! ## 2. Values -/

/-- Definitions as the value of a parameter. -/
def definitionsValue (normalize : Bool) (ds : List ListEntry) : Text :=
  '\n' :: definitionLines normalize ds ++ ['\n']

theorem value_eq (style : ListStyle) (ds : List ListEntry) :
    style.value ds = definitionsValue style.normalize (style.arrange ds) :=
  rfl

theorem refsParam_eq (value : Text) :
    refsParam value = '|' :: (refsKey ++ '=' :: value) ++ ['}', '}'] := by
  have hkey : "|refs=".toList = '|' :: (refsKey ++ ['=']) := by decide
  have happend : '|' :: (refsKey ++ ['=']) ++ value = '|' :: (refsKey ++ '=' :: value) := by simp
  rw [← happend, ← hkey]
  rfl

theorem mem_arrange {style : ListStyle} {d : ListEntry} {ds : List ListEntry} :
    d ∈ style.arrange ds ↔ d ∈ ds := by
  unfold ListStyle.arrange
  split
  · exact mem_sortStable
  · exact Iff.rfl

theorem arrange_eq_nil {style : ListStyle} {ds : List ListEntry} :
    style.arrange ds = [] ↔ ds = [] := by
  simp only [List.eq_nil_iff_forall_not_mem, mem_arrange]

section Values

variable {names : List Text} {name u : Text} {ds : List ListEntry} {normalize : Bool}
variable {before behind : List Text}

/-- A parameter with definitions is a segment. -/
theorem isSegment_refs (hu : IsRefsLabel u) (h : ∀ d ∈ ds, d.IsWritable names normalize) :
    SelfContained names (u ++ '=' :: definitionsValue normalize ds) ∧
      IsSegment (Text.veil (u ++ '=' :: definitionsValue normalize ds)) := by
  obtain ⟨hself, hsegment, -⟩ := reading_definitionLines h
  have hline := selfContained_lineEnd names
  have hvalue : SelfContained names (definitionsValue normalize ds) :=
    (hline.append hself).append hline
  have hveil : Text.veil (definitionsValue normalize ds) =
      [] ++ '\n' :: ((definitionLines normalize ds).veil ++ '\n' :: []) := by
    have hshape : definitionsValue normalize ds =
        ['\n'] ++ (definitionLines normalize ds ++ ['\n']) := rfl
    rw [hshape, hline.veil, hself.veil]
    rfl
  have hlabel : SelfContained names (u ++ ['=']) := by
    have hno : '{' ∉ u ++ ['='] := by
      intro hmem
      rcases List.mem_append.mp hmem with hmem | hmem
      · exact hu.label _ hmem (by decide)
      · exact absurd hmem (by decide)
    exact SelfContained.of_unbraced names (by simp [hu.untagged])
      (hasPair_eq_false_of_not_mem hno) fun hlast => hno (List.mem_of_getLast? hlast)
  refine ⟨?_, ?_⟩
  · have happend := hlabel.append hvalue
    rwa [List.append_assoc] at happend
  · rw [veil_refs hu, hveil]
    exact (isSegment_label hu.label).append_cons (by decide)
      (isSegment_nil.append_cons (by decide) (hsegment.append_cons (by decide) isSegment_nil))

theorem pairsOf_refs (hu : IsRefsLabel u) (value key : Text) :
    pairsOf key [u ++ '=' :: value] = if refsKey = key then [(key, value.trim)] else [] := by
  have htake : (u ++ '=' :: value).take u.length = u := List.take_left
  have hdrop : (u ++ '=' :: value).drop (u.length + 1) = value := by
    rw [List.drop_length_add_append]
    rfl
  rw [pairsOf_of_sign (equalsSign?_refs hu value), htake, hdrop, hu.key]

variable (normalize) in
/-- A value with definitions has one line end on each side. -/
theorem trim_definitionsValue (hne : ds ≠ []) :
    (definitionsValue normalize ds).trim = definitionLines normalize ds ∧
      (definitionsValue normalize ds).leadingBlanks = 1 ∧
      (definitionLines normalize ds).isEmpty = false := by
  obtain ⟨htrimmed, r, hr⟩ := trimmed_definitionLines hne
  have hstart : (definitionsValue normalize ds).trimStart =
      definitionLines normalize ds ++ ['\n'] := by
    rw [definitionsValue, hr]
    rfl
  have hend : Text.trimEnd (definitionLines normalize ds ++ ['\n']) =
      definitionLines normalize ds := by
    have hreverse : (definitionLines normalize ds ++ ['\n']).reverse =
        '\n' :: (definitionLines normalize ds).reverse := by simp
    rw [Text.trimEnd, hreverse, List.dropWhile_cons_of_pos (by decide), ← Text.trimEnd,
      Text.trimEnd_eq_self htrimmed.last]
  refine ⟨by rw [Text.trim, hstart, hend], ?_, by rw [hr]; rfl⟩
  rw [definitionsValue, hr]
  rfl

/-- The place of the definitions, behind the braces, the name, the parameters in front of them, and
the bar, the label, the sign and the line end of their own parameter. -/
theorem definitionSpan?_written (hu : IsRefsLabel u) (hne : ds ≠ [])
    (hw : IsWritable names name (before ++ (u ++ '=' :: definitionsValue normalize ds) :: behind))
    (hbehind : pairsOf refsKey behind = []) :
    (Template.ofWritten name
      (before ++ (u ++ '=' :: definitionsValue normalize ds) :: behind)).definitionSpan? =
        some (Span.ofLength (name.length + (barred before).length + u.length + 5)
          (definitionLines normalize ds).length) := by
  have htake : (u ++ '=' :: definitionsValue normalize ds).take u.length = u := List.take_left
  have hdrop : (u ++ '=' :: definitionsValue normalize ds).drop (u.length + 1) =
      definitionsValue normalize ds := by
    rw [List.drop_length_add_append]
    rfl
  have hparam := hw.param?_of_last (equalsSign?_refs hu _) (htake.symm ▸ hu.key) hbehind
  obtain ⟨htrim, hleading, hempty⟩ := trim_definitionsValue normalize hne
  have hpos :
      min 1 (before ++ (u ++ '=' :: definitionsValue normalize ds) :: behind).length = 1 := by
    rw [List.length_append, List.length_cons]
    omega
  rw [Template.definitionSpan?, ← refsKey, hparam]
  simp only [Option.bind_some, keyedParam, Param.make, hdrop, htrim, hempty, hleading,
    Bool.false_eq_true, if_false, Template.ofWritten, hpos]
  congr 2
  omega

/-- The definitions are read where they have been written. -/
theorem definitionsIn?_written (hu : IsRefsLabel u) (hne : ds ≠ [])
    (hlines : SelfContained names (definitionLines normalize ds))
    (hw : IsWritable names name (before ++ (u ++ '=' :: definitionsValue normalize ds) :: behind))
    (hbehind : pairsOf refsKey behind = []) :
    (Page.ofText (templateText name
      (barred (before ++ (u ++ '=' :: definitionsValue normalize ds) :: behind)))).definitionsIn?
        (Template.ofWritten name
          (before ++ (u ++ '=' :: definitionsValue normalize ds) :: behind)) =
      some (Page.ofText (definitionLines normalize ds)) := by
  have hshape :
      templateText name (barred (before ++ (u ++ '=' :: definitionsValue normalize ds) :: behind)) =
      (['{', '{'] ++ name ++ barred before ++ ('|' :: u ++ ['=', '\n'])) ++
        (definitionLines normalize ds ++ ('\n' :: barred behind ++ ['}', '}'])) := by
    simp [templateText, barred_append, barred_cons, definitionsValue]
  have hfront : VeilsAlone (['{', '{'] ++ name ++ barred before ++ ('|' :: u ++ ['=', '\n'])) :=
    ((veilsAlone_head hw.heading).append
      (veilsAlone_barred fun s hs => hw.veilsAlone s (List.mem_append_left _ hs))).append
        (veilsAlone_of_untagged (by simp [hu.untagged]))
  have hlength : (['{', '{'] ++ name ++ barred before ++ ('|' :: u ++ ['=', '\n'])).length =
      name.length + (barred before).length + u.length + 5 := by
    simp only [List.length_append, List.length_cons, List.length_nil]
    omega
  have hslice := slice_ofText hfront hlines.veilsAlone ('\n' :: barred behind ++ ['}', '}'])
  rw [hlength] at hslice
  rw [Page.definitionsIn?, definitionSpan?_written hu hne hw hbehind, Option.map_some, hshape,
    Span.start_ofLength, Span.stop_ofLength, hslice]

end Values

/-! ## 3. Lists with definitions -/

/-- The definitions `ds` stand in a list with these segments, and no others. -/
inductive HoldsDefinitions (normalize : Bool) : List Text → List ListEntry → Prop
  | none {segments : List Text} (h : pairsOf refsKey segments = []) :
      HoldsDefinitions normalize segments []
  | some {before behind : List Text} {u : Text} {ds : List ListEntry} (label : IsRefsLabel u)
      (last : pairsOf refsKey behind = []) (filled : ds ≠ []) :
      HoldsDefinitions normalize
        (before ++ (u ++ '=' :: definitionsValue normalize ds) :: behind) ds

section Lists

variable {names : List Text} {name : Text} {ds : List ListEntry} {normalize : Bool}
variable {segments : List Text}

/-- **A list is read as the definitions that stand in it.** -/
theorem HoldsDefinitions.readIn {α : Type} (h : HoldsDefinitions normalize segments ds)
    (hw : IsWritable names name segments) (hds : ∀ d ∈ ds, d.IsWritable names normalize)
    (read : Text → RefTag → Option α) (hread : ∀ n w t, read w (RefTag.shift n t) = read w t) :
    ((Page.ofText (templateText name (barred segments))).definitionsIn?
      (Template.ofWritten name segments)).elim [] (·.readIn read) =
        ds.flatMap fun d => (read (d.text normalize) (d.tag normalize)).toList := by
  cases h with
  | none hnone =>
    have hspan : (Template.ofWritten name segments).definitionSpan? = Option.none := by
      rw [Template.definitionSpan?, ← refsKey, hw.param?_eq_none hnone]
      rfl
    rw [Page.definitionsIn?, hspan]
    rfl
  | some hu hbehind hne =>
    obtain ⟨hlines, -, hlinesRead⟩ := reading_definitionLines hds
    rw [definitionsIn?_written hu hne hlines hw hbehind, Option.elim_some, hlinesRead read hread]

/-- The bodies that a list gives are those of the definitions in it. -/
theorem HoldsDefinitions.givenBodies (h : HoldsDefinitions normalize segments ds)
    (hw : IsWritable names name segments) (hwanted : isNameOf names (canonicalName name) = true)
    (hds : ∀ d ∈ ds, d.IsWritable names normalize)
    (hgroup : ∀ d ∈ ds, d.group = (Template.ofWritten name segments).group?) :
    CiteMarkup.givenBodies names (templateText name (barred segments)) =
      ds.map (ListEntry.given normalize) := by
  have hread := h.readIn hw hds (fun _ t =>
    t.givenIn? (Template.ofWritten name segments).group?) fun _ _ t => RefTag.givenIn?_shift _ _ t
  rw [CiteMarkup.givenBodies, (selfContained_listText hw hwanted).2, List.flatMap_singleton]
  refine hread.trans ?_
  rw [List.map_eq_flatMap]
  refine List.flatMap_congr fun d hd => ?_
  rw [← hgroup d hd, (hds d hd).givenIn?]
  rfl

/-- The group of a list does not depend on where its definitions stand. -/
theorem group?_eq (hw : IsWritable names name segments) :
    (Template.ofWritten name segments).group? =
      (pairsOf "group".toList segments).getLast?.bind fun x => Text.nonempty? x.2 :=
  hw.value?_eq _

end Lists

/-! ## 4. Rebuilding a list of a page -/

/-- The text of an output list that can be rebuilt: there is one place for definitions at most. -/
structure IsListText (names : List Text) (name : Text) (segments : List Text) : Prop
    extends IsWritable names name segments where
  wanted : isNameOf names (canonicalName name) = true
  single : (pairsOf refsKey segments).length ≤ 1

section Rebuild

variable {names : List Text} {name u x s : Text} {own : List ListEntry} {style : ListStyle}
variable {segments before behind : List Text} {e : Nat}

/-- The place for definitions in a list that has one. -/
theorem exists_refs_segment (h : pairsOf refsKey segments ≠ [])
    (hsingle : (pairsOf refsKey segments).length ≤ 1) :
    ∃ before s behind e, segments = before ++ s :: behind ∧ equalsSign? s.veil = some e ∧
      Text.lower (Text.trim (s.take e)) = refsKey ∧ pairsOf refsKey before = [] ∧
        pairsOf refsKey behind = [] := by
  induction segments with
  | nil => exact absurd rfl h
  | cons s rest ih =>
    rw [pairsOf_cons] at h hsingle
    by_cases hrest : pairsOf refsKey rest = []
    · rw [hrest, List.append_nil] at h
      cases he : equalsSign? s.veil with
      | none => exact absurd (by simp [pairsOf, segmentPair?, he]) h
      | some e =>
        rw [pairsOf_of_sign he] at h
        split at h
        · rename_i hkey
          exact ⟨[], s, rest, e, rfl, he, hkey, rfl, hrest⟩
        · exact absurd rfl h
    · -- what stands behind fills the one place
      have hfirst : pairsOf refsKey [s] = [] := by
        have hpos := List.length_pos_of_ne_nil hrest
        rw [List.length_append] at hsingle
        exact List.eq_nil_of_length_eq_zero (by omega)
      rw [hfirst, List.nil_append] at hsingle
      obtain ⟨before, s', behind, e, rfl, he, hkey, hbefore, hbehind⟩ := ih hrest hsingle
      refine ⟨s :: before, s', behind, e, rfl, he, hkey, ?_, hbehind⟩
      rw [pairsOf_cons, hfirst, hbefore]
      rfl

/-- A stretch of a text that stands behind another one on a page. -/
theorem slice_on_page {t v m w : Text} {a b : Nat} (ht : t = v ++ (m ++ w))
    (ha : a = u.length + v.length) (hb : b = a + m.length) :
    Text.slice (u ++ (t ++ x)) a b = m := by
  have hshape : u ++ (t ++ x) = (u ++ v) ++ (m ++ (w ++ x)) := by
    rw [ht]
    simp only [List.append_assoc]
  rw [hshape]
  refine Text.slice_between _ _ _ ?_ ?_
  · rw [ha, List.length_append]
  · rw [hb, ha, List.length_append]

/-- A list without a place for definitions stays, or gets one at its end. -/
theorem updated_of_none (hw : IsWritable names name segments)
    (hnone : pairsOf refsKey segments = []) (own : List ListEntry) :
    ((Template.ofWritten name segments).shift u.length).updated
      (u ++ (templateText name (barred segments) ++ x)) style own =
        if own.isEmpty then templateText name (barred segments)
        else templateText name (barred (segments ++ [refsKey ++ '=' :: style.value own])) := by
  have hrefs : ((Template.ofWritten name segments).shift u.length).refs? = none :=
    hw.param?_eq_none hnone
  have hspan : ((Template.ofWritten name segments).shift u.length).span =
      Span.ofLength u.length (templateText name (barred segments)).length := by
    simp [Template.ofWritten, Template.shift, Span.shift, Span.ofLength]
  rw [Template.updated, hrefs, hspan]
  simp only
  split
  · exact Text.slice_between _ _ _ rfl rfl
  · have hfront : (u ++ (templateText name (barred segments) ++ x)).slice u.length
        (u.length + (templateText name (barred segments)).length - 2) =
          ['{', '{'] ++ name ++ barred segments := by
      have hlength := length_templateText name (barred segments)
      refine slice_on_page (v := []) (w := ['}', '}']) (by simp [templateText]) rfl ?_
      simp only [List.length_append, List.length_cons, List.length_nil]
      omega
    rw [Span.start_ofLength, Span.stop_ofLength, hfront, refsParam_eq, barred_append]
    simp [templateText, barred]

section Refs

variable (hw : IsWritable names name (before ++ s :: behind)) (he : equalsSign? s.veil = some e)
  (hkey : Text.lower (Text.trim (s.take e)) = refsKey)

/-- Where a list stands whose place for definitions is known, and where its parameters begin. -/
theorem span_of_refs (name : Text) (before : List Text) (s : Text) (behind : List Text)
    (u : Text) :
    let l := (Template.ofWritten name (before ++ s :: behind)).shift u.length
    l.paramsStart = u.length + (name.length + 3) ∧ l.span = Span.ofLength u.length
      (name.length + (barred before).length + s.length + (barred behind).length + 5) := by
  intro l
  constructor
  · have hpos : min 1 (before ++ s :: behind).length = 1 := by
      rw [List.length_append, List.length_cons]
      omega
    simp only [l, Template.ofWritten, Template.shift, hpos]
  · have hlength : (templateText name (barred (before ++ s :: behind))).length =
        name.length + (barred before).length + s.length + (barred behind).length + 5 := by
      rw [length_templateText, barred_append, barred_cons, List.length_append,
        List.length_append, List.length_cons]
      omega
    simp [l, Template.ofWritten, Template.shift, Span.shift, Span.ofLength, hlength]

/-- What stands behind the place for definitions. -/
theorem slice_behind_refs (name : Text) (before : List Text) (s : Text) (behind : List Text)
    (u x : Text) :
    (u ++ (templateText name (barred (before ++ s :: behind)) ++ x)).slice
      (u.length + (name.length + 3) + ((barred before).length + s.length))
      (u.length + (name.length + (barred before).length + s.length +
        (barred behind).length + 5)) = barred behind ++ ['}', '}'] := by
  refine slice_on_page (v := ['{', '{'] ++ name ++ barred before ++ '|' :: s) (w := []) ?_ ?_ ?_
  · simp [templateText, barred_append, barred_cons]
  · simp only [List.length_append, List.length_cons, List.length_nil]
    omega
  · simp only [List.length_append, List.length_cons, List.length_nil]
    omega

/-- A list without its place for definitions. -/
theorem withoutRefs_eq (name : Text) (before : List Text) (s : Text) (behind : List Text)
    (u x : Text) (e : Nat) :
    ((Template.ofWritten name (before ++ s :: behind)).shift u.length).withoutRefs
      (u ++ (templateText name (barred (before ++ s :: behind)) ++ x))
      (keyedParam (barred before).length s e) =
        templateText name (barred (before ++ behind)) := by
  obtain ⟨hstart, hspan⟩ := span_of_refs name before s behind u
  have hparam : (keyedParam (barred before).length s e).span =
      Span.ofLength (barred before).length s.length := rfl
  have hfront : (u ++ (templateText name (barred (before ++ s :: behind)) ++ x)).slice u.length
      (u.length + (name.length + 3) + (barred before).length - 1) =
        ['{', '{'] ++ name ++ barred before := by
    refine slice_on_page (v := []) (w := '|' :: s ++ barred behind ++ ['}', '}']) ?_ rfl ?_
    · simp [templateText, barred_append, barred_cons]
    · simp only [List.length_append, List.length_cons, List.length_nil]
      omega
  rw [Template.withoutRefs, hspan, hstart, hparam]
  simp only [Span.start_ofLength, Span.stop_ofLength]
  rw [hfront, slice_behind_refs, barred_append]
  simp [templateText]

include he hkey in
/-- The sign of equality in the place for definitions. -/
theorem signOf?_refs (name : Text) (before behind : List Text) (u x : Text) :
    ((Template.ofWritten name (before ++ s :: behind)).shift u.length).signOf?
      (u ++ (templateText name (barred (before ++ s :: behind)) ++ x))
      (keyedParam (barred before).length s e) = some e := by
  obtain ⟨hs, hlt⟩ := eq_of_equalsSign? he
  obtain ⟨hstart, -⟩ := span_of_refs name before s behind u
  have hparam : (keyedParam (barred before).length s e).span =
      Span.ofLength (barred before).length s.length := rfl
  have hsegment : (u ++ (templateText name (barred (before ++ s :: behind)) ++ x)).slice
      (u.length + (name.length + 3) + (barred before).length)
      (u.length + (name.length + 3) + ((barred before).length + s.length)) = s := by
    refine slice_on_page (v := ['{', '{'] ++ name ++ barred before ++ ['|'])
      (w := barred behind ++ ['}', '}']) ?_ ?_ ?_
    · simp [templateText, barred_append, barred_cons]
    · simp only [List.length_append, List.length_cons, List.length_nil]
      omega
    · omega
  have hindex := indexOf?_append (r := s.drop (e + 1)) (isRefsLabel_of_key hkey).sign_not_mem
  rw [← hs, List.length_take_of_le (Nat.le_of_lt hlt)] at hindex
  rw [Template.signOf?, hstart, hparam, Span.start_ofLength, Span.stop_ofLength, hsegment]
  exact hindex

include he in
/-- A list with a new value in its place for definitions. -/
theorem withRefs_eq (name : Text) (before behind : List Text) (u x value : Text) :
    ((Template.ofWritten name (before ++ s :: behind)).shift u.length).withRefs
      (u ++ (templateText name (barred (before ++ s :: behind)) ++ x))
      (keyedParam (barred before).length s e) e value =
        templateText name (barred (before ++ (s.take e ++ '=' :: value) :: behind)) := by
  obtain ⟨hs, hlt⟩ := eq_of_equalsSign? he
  obtain ⟨hstart, hspan⟩ := span_of_refs name before s behind u
  have hparam : (keyedParam (barred before).length s e).span =
      Span.ofLength (barred before).length s.length := rfl
  have hlabelled : (u ++ (templateText name (barred (before ++ s :: behind)) ++ x)).slice u.length
      (u.length + (name.length + 3) + (barred before).length + e + 1) =
        ['{', '{'] ++ name ++ barred before ++ ('|' :: s.take e ++ ['=']) := by
    refine slice_on_page (v := []) (w := s.drop (e + 1) ++ barred behind ++ ['}', '}']) ?_ rfl ?_
    · conv_lhs => rw [hs]
      simp [templateText, barred_append, barred_cons]
    · simp only [List.length_append, List.length_cons, List.length_nil,
        List.length_take_of_le (Nat.le_of_lt hlt)]
      omega
  rw [Template.withRefs, hspan, hstart, hparam]
  simp only [Span.start_ofLength, Span.stop_ofLength]
  rw [hlabelled, slice_behind_refs, barred_append, barred_cons]
  simp [templateText]

include hw he hkey in
/-- A list with a place for definitions gets a new value there, or loses the place. -/
theorem updated_of_refs (hbehind : pairsOf refsKey behind = []) (own : List ListEntry) :
    ((Template.ofWritten name (before ++ s :: behind)).shift u.length).updated
      (u ++ (templateText name (barred (before ++ s :: behind)) ++ x)) style own =
        templateText name (barred (if own.isEmpty then before ++ behind
          else before ++ (s.take e ++ '=' :: style.value own) :: behind)) := by
  have hrefs : ((Template.ofWritten name (before ++ s :: behind)).shift u.length).refs? =
      some (keyedParam (barred before).length s e) := hw.param?_of_last he hkey hbehind
  rw [Template.updated, hrefs]
  simp only
  cases own.isEmpty with
  | true => rw [if_pos rfl, if_pos rfl, withoutRefs_eq]
  | false =>
    rw [if_neg (by simp), if_neg (by simp), signOf?_refs he hkey, Option.getD_some,
      withRefs_eq he]

end Refs

end Rebuild

/-! ## 5. Rebuilt lists -/

section Reading

variable {names : List Text} {name u x s : Text} {ds own : List ListEntry} {style : ListStyle}
variable {segments before behind : List Text} {group : Option Text}

theorem IsWritable.insert (h : IsWritable names name (before ++ behind))
    (hs : SelfContained names s) (hsegment : IsSegment s.veil) :
    IsWritable names name (before ++ s :: behind) where
  heading := h.heading
  contained := List.forall_mem_append.mpr ⟨fun v hv => h.contained v (List.mem_append_left _ hv),
    List.forall_mem_cons.mpr ⟨hs, fun v hv => h.contained v (List.mem_append_right _ hv)⟩⟩
  segment := List.forall_mem_append.mpr ⟨fun v hv => h.segment v (List.mem_append_left _ hv),
    List.forall_mem_cons.mpr ⟨hsegment, fun v hv => h.segment v (List.mem_append_right _ hv)⟩⟩

theorem IsWritable.erase (h : IsWritable names name (before ++ s :: behind)) :
    IsWritable names name (before ++ behind) := by
  have hsub : ∀ v ∈ before ++ behind, v ∈ before ++ s :: behind := fun v hv =>
    (List.mem_append.mp hv).elim (List.mem_append_left _)
      fun hv => List.mem_append_right _ (List.mem_cons_of_mem _ hv)
  exact ⟨h.heading, fun v hv => h.contained v (hsub v hv), fun v hv => h.segment v (hsub v hv)⟩

/-- A segment with another key does not matter to the group. -/
theorem group?_insert (hw : IsWritable names name (before ++ s :: behind))
    (hs : pairsOf "group".toList [s] = []) :
    (Template.ofWritten name (before ++ s :: behind)).group? =
      (Template.ofWritten name (before ++ behind)).group? := by
  rw [group?_eq hw, group?_eq hw.erase, pairsOf_append, pairsOf_append, pairsOf_cons, hs,
    List.nil_append]

/-- The text of an output list of a group with the definitions `ds` in it. -/
structure IsListOf (names : List Text) (normalize : Bool) (group : Option Text)
    (ds : List ListEntry) (w : Text) (name : Text) (segments : List Text) : Prop
    extends IsWritable names name segments where
  text : w = templateText name (barred segments)
  wanted : isNameOf names (canonicalName name) = true
  group : (Template.ofWritten name segments).group? = group
  holds : HoldsDefinitions normalize segments ds

/-- A list with definitions in one place of it. -/
theorem isListOf_insert (hu : IsRefsLabel u) (hw : IsWritable names name (before ++ behind))
    (hwanted : isNameOf names (canonicalName name) = true) (hne : ds ≠ []) {normalize : Bool}
    (h : ∀ d ∈ ds, d.IsWritable names normalize) (hbehind : pairsOf refsKey behind = []) :
    IsListOf names normalize (Template.ofWritten name (before ++ behind)).group? ds
      (templateText name (barred (before ++ (u ++ '=' :: definitionsValue normalize ds) :: behind)))
      name (before ++ (u ++ '=' :: definitionsValue normalize ds) :: behind) := by
  obtain ⟨hself, hsegment⟩ := isSegment_refs hu h
  have hw' := hw.insert hself hsegment
  have hother : pairsOf "group".toList [u ++ '=' :: definitionsValue normalize ds] = [] := by
    rw [pairsOf_refs hu, if_neg (by decide)]
  exact ⟨hw', rfl, hwanted, group?_insert hw' hother, .some hu hbehind hne⟩

/-- **A rebuilt list is one of the same group with the definitions that it got.** -/
theorem isListOf_updated (h : IsListText names name segments)
    (style : ListStyle) (hown : ∀ d ∈ own, d.IsWritable names style.normalize) (u x : Text) :
    ∃ segments', IsListOf names style.normalize (Template.ofWritten name segments).group?
      (style.arrange own) (((Template.ofWritten name segments).shift u.length).updated
        (u ++ (templateText name (barred segments) ++ x)) style own) name segments' := by
  have harranged : ∀ d ∈ style.arrange own, d.IsWritable names style.normalize :=
    fun d hd => hown d (mem_arrange.mp hd)
  by_cases hnone : pairsOf refsKey segments = []
  · rw [updated_of_none h.toIsWritable hnone own]
    split
    · rename_i he
      rw [arrange_eq_nil.mpr (List.isEmpty_iff.mp he)]
      exact ⟨segments, h.toIsWritable, rfl, h.wanted, rfl, .none hnone⟩
    · rename_i he
      have hw : IsWritable names name (segments ++ []) := by
        rw [List.append_nil]
        exact h.toIsWritable
      have hlist := isListOf_insert isRefsLabel_refsKey hw h.wanted
        (mt arrange_eq_nil.mp (mt List.isEmpty_iff.mpr he)) harranged rfl
      rw [List.append_nil segments] at hlist
      exact ⟨_, hlist⟩
  · obtain ⟨before, s, behind, e, rfl, hsign, hkey, hbefore, hbehind⟩ :=
      exists_refs_segment hnone h.single
    have hother : pairsOf "group".toList [s] = [] := by
      rw [pairsOf_of_sign hsign, hkey, if_neg (by decide)]
    rw [updated_of_refs h.toIsWritable hsign hkey hbehind own, group?_insert h.toIsWritable hother]
    split
    · rename_i he
      have hgone : pairsOf refsKey (before ++ behind) = [] := by
        rw [pairsOf_append, hbefore, hbehind]
        rfl
      rw [arrange_eq_nil.mpr (List.isEmpty_iff.mp he)]
      exact ⟨_, h.erase, rfl, h.wanted, rfl, .none hgone⟩
    · rename_i he
      exact ⟨_, isListOf_insert (isRefsLabel_of_key hkey) h.erase h.wanted
        (mt arrange_eq_nil.mp (mt List.isEmpty_iff.mpr he)) harranged hbehind⟩

/-- **A list that gets the definitions that it holds stays as it is.** -/
theorem updated_of_holds {normalize : Bool} (hw : IsWritable names name segments)
    (h : HoldsDefinitions normalize segments ds) (hnormalize : style.normalize = normalize)
    (hlines : (style.arrange own).map (·.text normalize) = ds.map (·.text normalize))
    (u x : Text) :
    ((Template.ofWritten name segments).shift u.length).updated
      (u ++ (templateText name (barred segments) ++ x)) style own =
        templateText name (barred segments) := by
  have hempty : own.isEmpty = ds.isEmpty := by
    have hnil := congrArg List.isEmpty hlines
    rw [List.isEmpty_map, List.isEmpty_map] at hnil
    rw [← hnil, Bool.eq_iff_iff, List.isEmpty_iff, List.isEmpty_iff, arrange_eq_nil]
  cases h with
  | none hnone => rw [updated_of_none hw hnone, hempty, List.isEmpty_nil, if_pos rfl]
  | some hu hbehind hne =>
    rename_i before behind v
    have htake : (v ++ '=' :: definitionsValue normalize ds).take v.length = v := List.take_left
    have hvalue : style.value own = definitionsValue normalize ds := by
      rw [value_eq, hnormalize, definitionsValue, definitionsValue, definitionLines,
        definitionLines, hlines]
    rw [updated_of_refs hw (equalsSign?_refs hu _) (htake.symm ▸ hu.key) hbehind, hempty,
      if_neg (by simpa using hne), htake, hvalue]

/-- The bodies that a list gives are those of the definitions that stand in it. -/
theorem IsListOf.givenBodies {normalize : Bool} {w : Text}
    (h : IsListOf names normalize group ds w name segments)
    (hds : ∀ d ∈ ds, d.IsWritable names normalize) (hgroup : ∀ d ∈ ds, d.group = group) :
    SelfContained names w ∧
      CiteMarkup.givenBodies names w = ds.map (ListEntry.given normalize) := by
  rw [h.text]
  exact ⟨(selfContained_listText h.toIsWritable h.wanted).1,
    h.holds.givenBodies h.toIsWritable h.wanted hds fun d hd => (hgroup d hd).trans h.group.symm⟩

/-! ## 6. Added lists -/

/-- A group that a list can be added for: it can stand between quotes and between bars. -/
structure IsListGroup (g : Text) : Prop extends IsAttribute g where
  segment : IsSegment g
  last : g.getLast? ≠ some '{'

/-- The parameter with the group of a list that is added. -/
def groupSegments (group : Option Text) : List Text :=
  group.toList.map fun g => "group".toList ++ '=' :: g

theorem newList_eq (hgroup : ∀ g ∈ group, IsListGroup g) (style : ListStyle)
    (own : List ListEntry) :
    newList group style own = ['\n'] ++ templateText "reflist".toList
      (barred (groupSegments group ++
        [refsKey ++ '=' :: definitionsValue style.normalize (style.arrange own)])) := by
  cases group with
  | none =>
    simp only [newList, Option.bind_none, refsParam_eq, value_eq]
    simp [templateText, groupSegments, barred]
  | some g =>
    have hkey : "|group=".toList = '|' :: ("group".toList ++ ['=']) := by decide
    simp only [newList, Option.bind_some, nonempty?_of_ne (hgroup g rfl).nonempty, refsParam_eq,
      value_eq, hkey]
    simp [templateText, groupSegments, barred]

theorem isWritable_groupSegments (hgroup : ∀ g ∈ group, IsListGroup g) :
    IsWritable names "reflist".toList (groupSegments group) ∧
      (Template.ofWritten "reflist".toList (groupSegments group)).group? = group := by
  have hname : IsTemplateName "reflist".toList :=
    ⟨List.all_eq_true.mp (by decide), by decide⟩
  cases group with
  | none =>
    have hw : IsWritable names "reflist".toList (groupSegments none) :=
      ⟨hname, by simp [groupSegments], by simp [groupSegments]⟩
    refine ⟨hw, ?_⟩
    rw [group?_eq hw]
    rfl
  | some g =>
    have hg := hgroup g rfl
    have hlabel : IsLabel "group".toList := fun c hc => by
      have hall : "group".toList.all (· ∉ ['|', '=', '{', '[', '}', ']']) = true := by decide
      exact of_decide_eq_true (List.all_eq_true.mp hall c hc)
    have huntagged : '<' ∉ "group".toList ++ '=' :: g := by
      simpa using hg.untagged
    have hveil : Text.veil ("group".toList ++ '=' :: g) = "group".toList ++ '=' :: g :=
      veil_of_untagged huntagged
    have hsign : equalsSign? (Text.veil ("group".toList ++ '=' :: g)) =
        some "group".toList.length := by
      rw [hveil, equalsSign?_label hlabel]
    have hpair : hasPair '{' ("group".toList ++ '=' :: g) = false := by
      rw [hasPair_append_cons (by decide), hg.unopened]
      rfl
    have hlast : ("group".toList ++ '=' :: g).getLast? ≠ some '{' := by
      obtain ⟨c, r, rfl⟩ := List.exists_cons_of_ne_nil hg.nonempty
      rw [List.getLast?_append_of_ne_nil _ (by simp), List.getLast?_cons_cons]
      exact hg.last
    have hw : IsWritable names "reflist".toList ["group".toList ++ '=' :: g] := by
      refine ⟨hname, fun s hs => ?_, fun s hs => ?_⟩
      · obtain rfl := List.mem_singleton.mp hs
        exact SelfContained.of_unbraced names huntagged hpair hlast
      · obtain rfl := List.mem_singleton.mp hs
        rw [hveil]
        exact (isSegment_label hlabel).append_cons (by decide) hg.segment
    refine ⟨hw, ?_⟩
    have htake : ("group".toList ++ '=' :: g).take "group".toList.length = "group".toList :=
      List.take_left
    have hdrop : ("group".toList ++ '=' :: g).drop ("group".toList.length + 1) = g := by
      rw [List.drop_length_add_append]
      rfl
    rw [groupSegments, Option.toList_some, List.map_singleton, group?_eq hw,
      pairsOf_of_sign hsign, htake, hdrop, if_pos (by decide), hg.trimmed.trim_eq]
    exact nonempty?_of_ne hg.nonempty

/-- **A list that is added is one of its group with the definitions that it got**, behind a line
end. -/
theorem isListOf_added (hname : isNameOf names (canonicalName "reflist".toList) = true)
    (hgroup : ∀ g ∈ group, IsListGroup g) (style : ListStyle) (hne : own ≠ [])
    (hown : ∀ d ∈ own, d.IsWritable names style.normalize) :
    ∃ w segments, newList group style own = ['\n'] ++ w ∧
      IsListOf names style.normalize group (style.arrange own) w "reflist".toList segments := by
  obtain ⟨hw, hlistGroup⟩ : IsWritable names _ _ ∧ _ := isWritable_groupSegments hgroup
  have hw' : IsWritable names "reflist".toList (groupSegments group ++ []) := by
    rwa [List.append_nil]
  have harranged : style.arrange own ≠ [] := mt arrange_eq_nil.mp hne
  have hlist := isListOf_insert isRefsLabel_refsKey hw' hname harranged
    (fun d hd => hown d (mem_arrange.mp hd)) rfl
  rw [List.append_nil (groupSegments group), hlistGroup] at hlist
  exact ⟨_, _, newList_eq hgroup style own, hlist⟩

end Reading

end CiteMarkup
