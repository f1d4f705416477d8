import CiteMarkup.Proofs.Template.Segments
/-!
# Parameters of a written template

A template that is written from segments is read back with these segments for its parameters:
those with a sign have the keys and the values that stand in the segments
(`filter_params_join`), and the last segment with a key gives the value under that key
(`value?_ofWritten`).  An output list that is written so is read by itself, and it is the only
mark in it, whatever tags and templates stand inside (`selfContained_listText`).
-/

namespace CiteMarkup

/-! ## 1. Parts of a page -/

/-- The text hides the same, whatever stands behind it. -/
def VeilsAlone (u : Text) : Prop := ∀ rest : Text, (u ++ rest).veil = u.veil ++ rest.veil

theorem veilsAlone_of_untagged {u : Text} (h : '<' ∉ u) : VeilsAlone u := fun rest => by
  rw [veil_append_of_untagged h, veil_of_untagged h]

theorem SelfContained.veilsAlone {names : List Text} {u : Text} (h : SelfContained names u) :
    VeilsAlone u := h.veil

theorem VeilsAlone.append {u v : Text} (hu : VeilsAlone u) (hv : VeilsAlone v) :
    VeilsAlone (u ++ v) := fun rest => by
  rw [List.append_assoc, hu, hv, hu, List.append_assoc]

/-- A text between two others is a page of its own, if it and what stands in front of it hide
nothing of what stands behind them. -/
theorem slice_ofText {front u : Text} (hfront : VeilsAlone front) (hu : VeilsAlone u)
    (rest : Text) :
    (Page.ofText (front ++ (u ++ rest))).slice front.length (front.length + u.length) =
      Page.ofText u := by
  have hseen : (front ++ (u ++ rest)).veil.slice front.length (front.length + u.length) =
      u.veil := by
    rw [hfront, hu]
    exact Text.slice_between _ _ _ (by simp) (by simp)
  have hraw : (front ++ (u ++ rest)).slice front.length (front.length + u.length) = u :=
    Text.slice_between _ _ _ rfl rfl
  simp only [Page.slice, Page.ofText, hraw, hseen]

section Barred

variable {names : List Text} {segments : List Text}

theorem barred_append (segments segments' : List Text) :
    barred (segments ++ segments') = barred segments ++ barred segments' :=
  List.flatMap_append

theorem selfContained_bar (names : List Text) : SelfContained names ['|'] :=
  SelfContained.of_unbraced names (by decide) (by decide) (by decide)

theorem selfContained_barred (h : ∀ s ∈ segments, SelfContained names s) :
    SelfContained names (barred segments) := by
  induction segments with
  | nil => exact SelfContained.nil
  | cons s rest ih =>
    rw [barred_cons]
    exact ((selfContained_bar names).append (h s List.mem_cons_self)).append
      (ih fun x hx => h x (List.mem_cons_of_mem _ hx))

theorem veil_barred (h : ∀ s ∈ segments, VeilsAlone s) :
    (barred segments).veil = barred (segments.map Text.veil) := by
  induction segments with
  | nil => rfl
  | cons s rest ih =>
    have hbar : VeilsAlone ['|'] := veilsAlone_of_untagged (by decide)
    have hs := h s List.mem_cons_self
    have hrest := ih fun x hx => h x (List.mem_cons_of_mem _ hx)
    rw [List.map_cons, barred_cons, barred_cons, ← hrest, ← List.singleton_append,
      (hbar.append hs) (barred rest), hbar s]
    rfl

theorem veilsAlone_barred (h : ∀ s ∈ segments, VeilsAlone s) : VeilsAlone (barred segments) := by
  induction segments with
  | nil => exact fun rest => rfl
  | cons s rest ih =>
    rw [barred_cons]
    exact ((veilsAlone_of_untagged (u := ['|']) (by decide)).append (h s List.mem_cons_self)).append
      (ih fun x hx => h x (List.mem_cons_of_mem _ hx))

end Barred

/-! ## 2. Segments with a key -/

/-- Key and value of a segment with a sign, the key in small letters. -/
def segmentPair? (s : Text) : Option (Text × Text) :=
  (equalsSign? s.veil).map fun e => (Text.lower (Text.trim (s.take e)), Text.trim (s.drop (e + 1)))

/-- The parameter in a segment that begins at `offset` and has its sign at `e`. -/
def keyedParam (offset : Nat) (s : Text) (e : Nat) : Param :=
  Param.make (.key (Text.trim (s.take e))) (s.drop (e + 1)) (offset + e + 1)
    (Span.ofLength offset s.length)

/-- The parameters with a key in segments that stand one behind the other from `offset` on. -/
def keyedParams : (offset : Nat) → (segments : List Text) → List Param
  | _, [] => []
  | offset, s :: rest =>
    ((equalsSign? s.veil).map (keyedParam offset s)).toList ++
      keyedParams (offset + s.length + 1) rest

section Params

variable {segments : List Text} {s : Text} {e : Nat}

theorem keyedParams_append (offset : Nat) (before behind : List Text) :
    keyedParams offset (before ++ behind) =
      keyedParams offset before ++ keyedParams (offset + (barred before).length) behind := by
  induction before generalizing offset with
  | nil => simp [keyedParams, barred]
  | cons s before ih =>
    rw [List.cons_append, keyedParams, keyedParams, ih, List.append_assoc, barred_cons,
      List.length_append, List.length_cons]
    congr 3
    omega

/-- The pairs of key and value that the parameters have. -/
theorem map_keyedParams (offset : Nat) (segments : List Text) :
    (keyedParams offset segments).map (fun p => (p.name.lower, p.value)) =
      segments.filterMap segmentPair? := by
  induction segments generalizing offset with
  | nil => rfl
  | cons s rest ih =>
    rw [keyedParams, List.map_append, ih]
    cases hsign : equalsSign? s.veil with
    | none =>
      have hpair : segmentPair? s = none := by rw [segmentPair?, hsign]; rfl
      rw [List.filterMap_cons_none hpair]
      rfl
    | some e =>
      have hpair : segmentPair? s =
          some (Text.lower (Text.trim (s.take e)), Text.trim (s.drop (e + 1))) := by
        rw [segmentPair?, hsign]
        rfl
      rw [List.filterMap_cons_some hpair]
      rfl

theorem isKeyed_of_mem_keyedParams {p : Param} (offset : Nat)
    (h : p ∈ keyedParams offset segments) : p.isKeyed = true := by
  induction segments generalizing offset with
  | nil => cases h
  | cons s rest ih =>
    rcases List.mem_append.mp h with h | h
    · obtain ⟨e, -, rfl⟩ := Option.map_eq_some_iff.mp (Option.mem_toList.mp h)
      rfl
    · exact ih _ h

/-- The parameters with a key that are read in segments behind a text. -/
theorem filter_paramsFrom {front : Text} (hfront : VeilsAlone front) {rest : List Text}
    (h : ∀ x ∈ s :: rest, VeilsAlone x) (count : Nat) :
    ((Page.ofText (front ++ (s ++ barred rest))).paramsFrom front.length count
      ((s :: rest).map List.length)).filter (·.isKeyed) = keyedParams front.length (s :: rest) := by
  induction rest generalizing front s count with
  | nil =>
    have hslice := slice_ofText hfront (h s List.mem_cons_self) (barred [])
    rw [List.map_cons, List.map_nil, Page.paramsFrom, hslice, keyedParams]
    simp only [Page.ofText]
    cases equalsSign? s.veil <;> rfl
  | cons s' rest ih =>
    have hs := h s List.mem_cons_self
    have hslice := slice_ofText hfront hs (barred (s' :: rest))
    have hbar : VeilsAlone ['|'] := veilsAlone_of_untagged (by decide)
    have hshape : front ++ (s ++ barred (s' :: rest)) =
        (front ++ s ++ ['|']) ++ (s' ++ barred rest) := by
      simp [barred_cons]
    have hlength : (front ++ s ++ ['|']).length = front.length + s.length + 1 := by
      simp only [List.length_append, List.length_cons, List.length_nil]
    have hrest := fun count => ih ((hfront.append hs).append hbar)
      (fun x hx => h x (List.mem_cons_of_mem _ hx)) count
    rw [hlength, ← hshape] at hrest
    rw [List.map_cons, Page.paramsFrom, hslice, keyedParams]
    simp only [Page.ofText]
    cases equalsSign? s.veil with
    | none =>
      rw [List.filter_cons_of_neg (by simp [Param.make, Param.isKeyed])]
      exact hrest (count + 1)
    | some e =>
      rw [List.filter_cons_of_pos (by simp [Param.make, Param.isKeyed])]
      exact congrArg _ (hrest count)

theorem segmentLengths_veil_join (hne : segments ≠ []) (hveil : ∀ x ∈ segments, VeilsAlone x)
    (hclosed : ∀ x ∈ segments, IsClosed x.veil) :
    segmentLengths (Text.join ['|'] segments).veil = segments.map List.length := by
  obtain ⟨s, rest, rfl⟩ := List.exists_cons_of_ne_nil hne
  have hseen : (Text.join ['|'] (s :: rest)).veil =
      Text.join ['|'] ((s :: rest).map Text.veil) := by
    rw [join_eq_flatMap, hveil s List.mem_cons_self, List.map_cons, join_eq_flatMap]
    exact congrArg (s.veil ++ ·) (veil_barred fun x hx => hveil x (List.mem_cons_of_mem _ hx))
  rw [hseen, segmentLengths_join (by simp) fun v hv => ?_]
  · simp [Function.comp_def]
  · obtain ⟨x, hx, rfl⟩ := List.mem_map.mp hv
    exact hclosed x hx

/-- **The parameters with a key that are read in a written parameter text** stand in its
segments. -/
theorem filter_params_join (hveil : ∀ x ∈ segments, VeilsAlone x)
    (hclosed : ∀ x ∈ segments, IsClosed x.veil) :
    (Page.ofText (Text.join ['|'] segments)).params.filter (·.isKeyed) =
      keyedParams 0 segments := by
  cases segments with
  | nil => rfl
  | cons s rest =>
    have hlengths := segmentLengths_veil_join (by simp) hveil hclosed
    have hfront : VeilsAlone [] := fun rest => rfl
    have hread := filter_paramsFrom hfront hveil 0
    rw [List.nil_append] at hread
    have hjoin : Text.join ['|'] (s :: rest) = s ++ barred rest := join_eq_flatMap _ _ _
    have hparams : (Page.ofText (Text.join ['|'] (s :: rest))).params =
        if (Text.join ['|'] (s :: rest)).isEmpty then []
        else (Page.ofText (Text.join ['|'] (s :: rest))).paramsFrom 0 0
          ((s :: rest).map List.length) := by
      rw [← hlengths]
      rfl
    rw [hparams]
    split
    · -- an empty text has no parameter, and an empty segment has no key
      rename_i hempty
      have hnil : s ++ barred rest = [] := by
        rw [← hjoin]
        simpa using hempty
      obtain ⟨rfl, hbarred⟩ := List.append_eq_nil_iff.mp hnil
      cases rest with
      | nil => rfl
      | cons s' rest => simp [barred_cons] at hbarred
    · rw [hjoin]
      exact hread

theorem length_paramsFrom (p : Page) (lengths : List Nat) (offset count : Nat) :
    (p.paramsFrom offset count lengths).length = lengths.length := by
  induction lengths generalizing offset count with
  | nil => rfl
  | cons n ns ih =>
    rw [Page.paramsFrom]
    split <;> simp [ih]

theorem length_keyedParams (hsigns : ∀ x ∈ segments, (equalsSign? x.veil).isSome) (offset : Nat) :
    (keyedParams offset segments).length = segments.length := by
  induction segments generalizing offset with
  | nil => rfl
  | cons s rest ih =>
    obtain ⟨e, he⟩ := Option.isSome_iff_exists.mp (hsigns s List.mem_cons_self)
    rw [keyedParams, he, Option.map_some, Option.toList_some, List.singleton_append,
      List.length_cons, ih fun x hx => hsigns x (List.mem_cons_of_mem _ hx), List.length_cons]

/-- If every segment has a sign, the parameters that are read are those with a key. -/
theorem params_join (hveil : ∀ x ∈ segments, VeilsAlone x)
    (hclosed : ∀ x ∈ segments, IsClosed x.veil)
    (hsigns : ∀ x ∈ segments, (equalsSign? x.veil).isSome) :
    (Page.ofText (Text.join ['|'] segments)).params = keyedParams 0 segments := by
  have hfilter := filter_params_join hveil hclosed
  have hlength : (Page.ofText (Text.join ['|'] segments)).params.length ≤ segments.length := by
    cases segments with
    | nil => exact Nat.le_refl 0
    | cons s rest =>
      unfold Page.params
      split
      · exact Nat.zero_le _
      · have hlengths := segmentLengths_veil_join (by simp) hveil hclosed
        rw [length_paramsFrom]
        exact Nat.le_of_eq ((congrArg List.length hlengths).trans (List.length_map _))
  -- no parameter is left out, since there are as many with a key as there are segments
  have hall : (Page.ofText (Text.join ['|'] segments)).params.filter (·.isKeyed) =
      (Page.ofText (Text.join ['|'] segments)).params := by
    refine List.Sublist.eq_of_length_le List.filter_sublist ?_
    rw [hfilter, length_keyedParams hsigns]
    exact hlength
  rw [← hall, hfilter]

end Params

/-! ## 3. Written templates -/

/-- The invocation that a template written from segments is on a page of its own. -/
def Template.ofWritten (name : Text) (segments : List Text) : Template where
  span := Span.ofLength 0 (templateText name (barred segments)).length
  name := Text.trim name
  paramText := Text.join ['|'] segments
  paramsStart := name.length + 2 + min 1 segments.length
  params := (Page.ofText (Text.join ['|'] segments)).params

/-- A template can be written with the name and the segments. -/
structure IsWritable (names : List Text) (name : Text) (segments : List Text) : Prop where
  heading : IsTemplateName name
  contained : ∀ s ∈ segments, SelfContained names s
  segment : ∀ s ∈ segments, IsSegment s.veil

section Written

variable {names : List Text} {name : Text} {segments : List Text} {key : Text}

theorem untagged_of_isTemplateName (h : IsTemplateName name) : '<' ∉ ['{', '{'] ++ name := by
  intro hmem
  rcases List.mem_append.mp hmem with hmem | hmem
  · exact absurd hmem (by decide)
  · exact absurd (h.all _ hmem) (by decide)

theorem veilsAlone_head (h : IsTemplateName name) : VeilsAlone (['{', '{'] ++ name) :=
  veilsAlone_of_untagged (untagged_of_isTemplateName h)

theorem templateText_eq (name inner : Text) :
    templateText name inner = (['{', '{'] ++ name) ++ (inner ++ ['}', '}']) := by
  simp [templateText]

theorem IsWritable.veilsAlone (h : IsWritable names name segments) :
    ∀ s ∈ segments, VeilsAlone s := fun s hs => (h.contained s hs).veilsAlone

/-- The veil leaves name and braces as they are. -/
theorem IsWritable.veil (h : IsWritable names name segments) :
    VeilsAlone (templateText name (barred segments)) ∧
      (templateText name (barred segments)).veil =
        templateText name (barred (segments.map Text.veil)) := by
  have hclose : VeilsAlone ['}', '}'] := veilsAlone_of_untagged (by decide)
  have hinner := veilsAlone_barred h.veilsAlone
  rw [templateText_eq]
  refine ⟨(veilsAlone_head h.heading).append (hinner.append hclose), ?_⟩
  rw [veilsAlone_head h.heading, veil_of_untagged (untagged_of_isTemplateName h.heading), hinner,
    veil_barred h.veilsAlone, templateText_eq]
  rfl

theorem IsWritable.isInner (h : IsWritable names name segments) :
    IsInner (barred (segments.map Text.veil)) :=
  isInner_barred fun v hv => by
    obtain ⟨s, hs, rfl⟩ := List.mem_map.mp hv
    exact h.segment s hs

/-- What stands behind the name is a bar, if there are segments, and the parameter text. -/
theorem exists_bar (segments : List Text) : ∃ bar : Text, '<' ∉ bar ∧
    bar.length = min 1 segments.length ∧ barred segments = bar ++ Text.join ['|'] segments := by
  cases segments with
  | nil => exact ⟨[], by decide, rfl, rfl⟩
  | cons s rest =>
    refine ⟨['|'], by decide, ?_, ?_⟩
    · simp
    · rw [join_eq_flatMap]
      rfl

theorem veilsAlone_join (h : ∀ s ∈ segments, VeilsAlone s) :
    VeilsAlone (Text.join ['|'] segments) := by
  cases segments with
  | nil => exact fun rest => rfl
  | cons s rest =>
    rw [join_eq_flatMap]
    exact (h s List.mem_cons_self).append
      (veilsAlone_barred fun x hx => h x (List.mem_cons_of_mem _ hx))

/-- The invocation under the heading of the template is the one that was written. -/
theorem IsWritable.invocation (h : IsWritable names name segments) :
    (Page.ofText (templateText name (barred segments))).invocation
      ⟨Span.ofLength 0 (templateText name (barred segments)).length,
        ⟨name.length, !(barred (segments.map Text.veil)).isEmpty⟩⟩ =
      Template.ofWritten name segments := by
  obtain ⟨bar, hbar, hbarLength, hinner⟩ := exists_bar segments
  have hlength : (templateText name (barred segments)).length =
      name.length + 2 + bar.length + (Text.join ['|'] segments).length + 2 := by
    rw [length_templateText, hinner, List.length_append]
    omega
  have hname : (templateText name (barred segments)).slice 2 (2 + name.length) = name :=
    Text.slice_between _ _ _ rfl rfl
  have hslice := slice_ofText ((veilsAlone_head h.heading).append (veilsAlone_of_untagged hbar))
    (veilsAlone_join h.veilsAlone) ['}', '}']
  have hshape : templateText name (barred segments) =
      ['{', '{'] ++ name ++ bar ++ (Text.join ['|'] segments ++ ['}', '}']) := by
    simp [templateText, hinner]
  have hfront : (['{', '{'] ++ name ++ bar).length = name.length + 2 + bar.length := by
    simp only [List.length_append, List.length_cons, List.length_nil]
    omega
  rw [hfront, ← hshape] at hslice
  have hstop : (templateText name (barred segments)).length - 2 =
      name.length + 2 + bar.length + (Text.join ['|'] segments).length := by
    omega
  have hstart : (if !(barred (segments.map Text.veil)).isEmpty then 2 + name.length + 1
      else name.length + 2 + bar.length + (Text.join ['|'] segments).length) =
        name.length + 2 + bar.length := by
    cases segments with
    | nil =>
      rw [if_neg (by simp [barred])]
      simp [Text.join]
    | cons s rest =>
      rw [if_pos (by simp [barred_cons]), hbarLength, List.length_cons]
      omega
  rw [Page.invocation, Template.ofWritten, ← hbarLength]
  simp only [Span.start_ofLength, Span.stop_ofLength, Nat.zero_add, hstop, hstart, hslice]
  congr 1
  exact congrArg Text.trim hname

/-- The rules for tags pass over the name and the braces. -/
theorem IsWritable.splits_tags {α : Type} (h : IsWritable names name segments)
    {rule : Text → Verdict α} (hrule : ∀ t, refOpening? t = none → rule t = .pass)
    (hsplits : Splits rule (barred segments).veil) :
    Splits rule (templateText name (barred (segments.map Text.veil))) := by
  rw [templateText_eq, ← veil_barred h.veilsAlone]
  exact (Splits.of_untagged rule (untagged_of_isTemplateName h.heading) hrule).1.append
    (hsplits.append (Splits.of_untagged rule (by decide) hrule).1)

/-- Citation templates are found in a written template as they are in its segments, or it is one
itself. -/
theorem IsWritable.splits_cites (h : IsWritable names name segments) :
    Splits (invocationRule (isNameOf [chainName, locatorName]))
      (templateText name (barred (segments.map Text.veil))) := by
  cases hcited : isNameOf [chainName, locatorName] (canonicalName name) with
  | true => exact (Splits.of_written h.heading h.isInner hcited).1
  | false =>
    refine (Splits.of_unwanted h.heading h.isInner hcited ?_).1
    rw [← veil_barred h.veilsAlone]
    exact (selfContained_barred h.contained).marks.cites.append
      (Splits.of_unbraced _ (by decide) (by decide)).1

/-- The output list that is written is found as a whole. -/
theorem IsWritable.templates (h : IsWritable names name segments)
    (hwanted : isNameOf names (canonicalName name) = true) :
    (Page.ofText (templateText name (barred segments))).templates names =
      [Template.ofWritten name segments] := by
  obtain ⟨-, hseen⟩ := h.veil
  obtain ⟨-, hscan⟩ := Splits.of_written h.heading h.isInner hwanted
  have hpage : (Page.ofText (templateText name (barred segments))).seen =
      templateText name (barred (segments.map Text.veil)) := hseen
  have hlength : (templateText name (barred (segments.map Text.veil))).length =
      (templateText name (barred segments)).length := by
    rw [← hseen, length_veil]
  rw [Page.templates, Page.templatesWhere, hpage, hscan, hlength, List.map_singleton, h.invocation]

/-- All other marks would begin inside the list. -/
theorem IsWritable.tokens (h : IsWritable names name segments)
    (hwanted : isNameOf names (canonicalName name) = true) :
    (Page.ofText (templateText name (barred segments))).tokens names =
      [.list (Template.ofWritten name segments)] := by
  have htemplates := h.templates hwanted
  have hin : ∀ i < (templateText name (barred segments)).length,
      (Page.ofText (templateText name (barred segments))).inList names i = true := fun i hi => by
    rw [Page.inList, htemplates]
    simpa [Template.ofWritten, Span.contains_iff] using hi
  have htagMarks : (Page.ofText (templateText name (barred segments))).tagMarks names = [] := by
    rw [Page.tagMarks, List.filter_eq_nil_iff]
    intro t ht
    simp [hin _ (Page.start_lt_of_mem_refTags ht)]
  have hciteMarks : (Page.ofText (templateText name (barred segments))).citeMarks names = [] := by
    rw [Page.citeMarks, List.filter_eq_nil_iff]
    intro c hc
    have hi := Page.isInvocation_of_mem hc
    simp [hin _ (Nat.lt_of_lt_of_le hi.start_lt hi.stop_le)]
  rw [Page.tokens_eq, htemplates, htagMarks, hciteMarks]
  rfl

/-- **An output list that is written from segments is read by itself**, and it is the only mark
in it. -/
theorem selfContained_listText (h : IsWritable names name segments)
    (hwanted : isNameOf names (canonicalName name) = true) :
    SelfContained names (templateText name (barred segments)) ∧
      (Page.ofText (templateText name (barred segments))).tokens names =
        [.list (Template.ofWritten name segments)] := by
  obtain ⟨halone, hseen⟩ := h.veil
  have hpage : (Page.ofText (templateText name (barred segments))).seen =
      templateText name (barred (segments.map Text.veil)) := hseen
  have hbarred := selfContained_barred h.contained
  refine ⟨⟨halone, ?full, ?empty, ?lists, ?cites⟩, h.tokens hwanted⟩
  case full =>
    rw [hpage]
    exact h.splits_tags (fun _ => fullTagRule_pass) hbarred.marks.full
  case empty =>
    rw [hpage]
    exact h.splits_tags (fun _ => emptyTagRule_pass) hbarred.marks.empty
  case lists =>
    rw [hpage]
    exact (Splits.of_written h.heading h.isInner hwanted).1
  case cites =>
    rw [hpage]
    exact h.splits_cites

end Written

/-! ## 4. Values under a key -/

/-- The pairs of key and value of the segments with a key. -/
def pairsOf (key : Text) (segments : List Text) : List (Text × Text) :=
  (segments.filterMap segmentPair?).filter (·.1 == key)

section Lookup

variable {names : List Text} {name key : Text} {segments before behind : List Text} {s : Text}
variable {e : Nat}

theorem pairsOf_append (key : Text) (before behind : List Text) :
    pairsOf key (before ++ behind) = pairsOf key before ++ pairsOf key behind := by
  rw [pairsOf, List.filterMap_append, List.filter_append]
  rfl

theorem pairsOf_cons (key s : Text) (rest : List Text) :
    pairsOf key (s :: rest) = pairsOf key [s] ++ pairsOf key rest :=
  pairsOf_append key [s] rest

/-- A segment counts for its own key only. -/
theorem pairsOf_of_sign (he : equalsSign? s.veil = some e) :
    pairsOf key [s] = if Text.lower (Text.trim (s.take e)) = key then
      [(key, Text.trim (s.drop (e + 1)))] else [] := by
  have hpair : segmentPair? s =
      some (Text.lower (Text.trim (s.take e)), Text.trim (s.drop (e + 1))) := by
    rw [segmentPair?, he]
    rfl
  rw [pairsOf, List.filterMap_cons_some hpair, List.filterMap_nil]
  split
  · rename_i hkey
    rw [List.filter_cons_of_pos (by simp [hkey]), hkey]
    rfl
  · rename_i hkey
    rw [List.filter_cons_of_neg (by simp [hkey])]
    rfl

/-- The last parameter with a key is found among those in the segments. -/
theorem IsWritable.param?_eq (h : IsWritable names name segments) (key : Text) :
    (Template.ofWritten name segments).param? key =
      ((keyedParams 0 segments).filter (·.hasKey key)).getLast? := by
  have hkeyed : (Template.ofWritten name segments).params.filter (·.hasKey key) =
      (keyedParams 0 segments).filter (·.hasKey key) := by
    rw [← filter_params_join h.veilsAlone fun x hx => (h.segment x hx).closed, List.filter_filter]
    refine List.filter_congr fun p _ => ?_
    rw [Param.hasKey]
    cases p.isKeyed <;> simp
  rw [Template.param?, ← List.getLast?_filter, hkeyed]

/-- The parameters with a key, as pairs. -/
theorem map_filter_keyedParams (key : Text) (offset : Nat) (segments : List Text) :
    ((keyedParams offset segments).filter (·.hasKey key)).map (fun p => (p.name.lower, p.value)) =
      pairsOf key segments := by
  rw [pairsOf, ← map_keyedParams offset, List.filter_map]
  congr 1
  refine List.filter_congr fun p hp => ?_
  rw [Param.hasKey, isKeyed_of_mem_keyedParams offset hp]
  rfl

/-- **The value under a key is that of the last segment with the key.** -/
theorem IsWritable.value?_eq (h : IsWritable names name segments) (key : Text) :
    (Template.ofWritten name segments).value? key =
      (pairsOf key segments).getLast?.bind fun x => Text.nonempty? x.2 := by
  rw [Template.value?, h.param?_eq, ← map_filter_keyedParams key 0, List.getLast?_map]
  cases ((keyedParams 0 segments).filter (·.hasKey key)).getLast? <;> rfl

theorem IsWritable.param?_eq_none (h : IsWritable names name segments)
    (hnone : pairsOf key segments = []) : (Template.ofWritten name segments).param? key = none := by
  rw [← map_filter_keyedParams key 0, List.map_eq_nil_iff] at hnone
  rw [h.param?_eq, hnone]
  rfl

/-- The last segment with a key is the parameter under the key. -/
theorem IsWritable.param?_of_last (h : IsWritable names name (before ++ s :: behind))
    (he : equalsSign? s.veil = some e) (hkey : Text.lower (Text.trim (s.take e)) = key)
    (hbehind : pairsOf key behind = []) :
    (Template.ofWritten name (before ++ s :: behind)).param? key =
      some (keyedParam (barred before).length s e) := by
  have hlast : (keyedParams ((barred before).length + s.length + 1) behind).filter
      (·.hasKey key) = [] := by
    rwa [← map_filter_keyedParams key ((barred before).length + s.length + 1),
      List.map_eq_nil_iff] at hbehind
  have hmine : (keyedParam (barred before).length s e).hasKey key = true := by
    have heq : (keyedParam (barred before).length s e).name.lower = key := hkey
    rw [Param.hasKey, heq]
    simp [keyedParam, Param.make, Param.isKeyed]
  rw [h.param?_eq, keyedParams_append, Nat.zero_add, keyedParams, he, Option.map_some,
    List.filter_append, List.filter_append, hlast, List.append_nil, Option.toList_some,
    List.filter_cons_of_pos hmine, List.filter_nil, List.getLast?_concat]

end Lookup
end CiteMarkup
