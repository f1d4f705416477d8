import CiteMarkup.Proofs.Page.Edges
import CiteMarkup.Proofs.Tag.Content
import CiteMarkup.Proofs.Tag.Retagged
/-!
# Tags read back

A tag that is written for a reference is to be read as the one tag that it is, with its name, its
group and its body.  A name may hold a bracket, and even begin a protected part.  What hides the end
of a value goes on to a bracket, so it hides the beginning of the next value too, and the tag is
still an opening tag of the same length as long as its own bracket is seen
(`exists_veil_written`).

The main result is `tags_read_back_iff`.  A quote in a value is written as an entity and read as
one, so a name with a quote comes back as another name.
-/

namespace CiteMarkup

variable {l : Attributes} {close x : Text} {hidden : Nat}

/-! ## 1. What is seen of attributes -/

/-- No quote is seen in a value without one. -/
theorem not_mem_of_veiled {u u' : Text} (hu : '"' ∉ u)
    (h : ∀ c ∈ u', c ∈ u ∨ c ∈ u.map veiled) : '"' ∉ u' := fun hm =>
  (h _ hm).elim hu (Hides.not_mem_map_veiled (by decide) u)

/-- A bracket hides nothing. -/
theorem veil_bracket (x : Text) : Text.veil ('>' :: x) = '>' :: x.veil :=
  veil_append_of_untagged (u := ['>']) (by decide) x

/-- The text between the value in front of an attribute and its own value. -/
def betweenValues (key : Text) : Text := '"' :: ' ' :: (key ++ "=\"".toList)

theorem betweenValues_plain {key : Text} (h : key ∈ attributeKeys) :
    '<' ∉ betweenValues key ∧ '>' ∉ betweenValues key := by
  have hkey := (key_cases h).1
  simp [betweenValues, not_mem_of_isKey (d := '<') hkey (by decide),
    not_mem_of_isKey (d := '>') hkey (by decide)]

theorem writtenAttributes_cons (a : Text × Text) (l : Attributes) (y : Text) :
    '"' :: (writtenAttributes (a :: l) ++ y) =
      betweenValues a.1 ++ (a.2 ++ '"' :: (writtenAttributes l ++ y)) := by
  simp [writtenAttributes, writtenAttribute, betweenValues]

theorem length_writtenAttributes_cons (a : Text × Text) (l : Attributes) :
    (writtenAttributes (a :: l)).length =
      a.1.length + a.2.length + 4 + (writtenAttributes l).length := by
  simp [writtenAttributes, writtenAttribute]
  omega

theorem AreQuoted.cons {a : Text × Text} {l' : Attributes} (h : AreQuoted (a :: l))
    {v : Text} (hv : '"' ∉ v) (h' : AreQuoted l')
    (hkeys : (l'.map Prod.fst).Sublist (l.map Prod.fst)) : AreQuoted ((a.1, v) :: l') where
  keys := List.forall_mem_cons.mpr ⟨h.keys a List.mem_cons_self, h'.keys⟩
  unquoted := List.forall_mem_cons.mpr ⟨hv, h'.unquoted⟩
  nodup := List.nodup_cons.mpr
    ⟨fun hm => (List.nodup_cons.mp h.nodup).1 (hkeys.subset hm), h'.nodup⟩

/-- **What is seen of a value and the attributes behind it** are a value and attributes, as long as
the bracket at the end is seen: what hides a closing quote goes on into the next value. -/
theorem exists_veilFrom_values (h : AreQuoted l) {v : Text} (hv : '"' ∉ v)
    (hclose : '<' ∉ close ∧ '>' ∉ close)
    (hend : EndsAtBracket hidden (v ++ '"' :: (writtenAttributes l ++ (close ++ '>' :: x))))
    (hseen : (veilFrom hidden (v ++ '"' :: (writtenAttributes l ++ (close ++ '>' :: x))))[v.length +
      ((writtenAttributes l).length + close.length + 1)]? = some '>') :
    ∃ v' l', '"' ∉ v' ∧ AreQuoted l' ∧ (l'.map Prod.fst).Sublist (l.map Prod.fst) ∧
      v'.length + (writtenAttributes l').length = v.length + (writtenAttributes l).length ∧
      veilFrom hidden (v ++ '"' :: (writtenAttributes l ++ (close ++ '>' :: x))) =
        v' ++ '"' :: (writtenAttributes l' ++ (close ++ '>' :: x.veil)) := by
  induction l generalizing v hidden with
  | nil =>
    obtain ⟨v', n, heq, hlength, hmem, hend'⟩ := exists_veilFrom_append hend
    rw [heq, List.getElem?_append_right (by omega), hlength, Nat.add_sub_cancel_left] at hseen
    have hplain : '<' ∉ '"' :: close ∧ '>' ∉ '"' :: close := by simpa using hclose
    have hshown : veilFrom n (('"' :: close) ++ '>' :: x) =
        ('"' :: close) ++ Text.veil ('>' :: x) :=
      veilFrom_append_of_seen (c := '>') hplain (by decide) hend' (by
        simpa [writtenAttributes] using hseen)
    refine ⟨v', [], not_mem_of_veiled hv hmem, h, List.Sublist.refl _, by rw [hlength], ?_⟩
    rw [heq]
    refine congrArg (v' ++ ·) (hshown.trans ?_)
    rw [veil_bracket]
    rfl
  | cons a l ih =>
    have hvalue := h.unquoted a List.mem_cons_self
    have hplain := betweenValues_plain (h.keys a List.mem_cons_self)
    have hbetween : (betweenValues a.1).length = a.1.length + 4 := by simp [betweenValues]
    rw [writtenAttributes_cons] at hend hseen ⊢
    obtain ⟨v', n, heq, hlength, hmem, hend'⟩ := exists_veilFrom_append hend
    have hv' := not_mem_of_veiled hv hmem
    have hindex : ∀ {u y : Text}, u.length = (betweenValues a.1).length →
        (v' ++ (u ++ y))[v.length + ((writtenAttributes (a :: l)).length + close.length + 1)]? =
          y[a.2.length + ((writtenAttributes l).length + close.length + 1)]? := by
      intro u y hu
      rw [length_writtenAttributes_cons, List.getElem?_append_right (by omega),
        List.getElem?_append_right (by omega)]
      congr 1
      omega
    rw [heq] at hseen ⊢
    rcases veilFrom_append_of_plain hplain (by simp) hend' with hshown | ⟨m, hhidden, hend''⟩
    · rw [hshown, hindex rfl] at hseen
      obtain ⟨w, l', hw, hl', hkeys, hlen, heq'⟩ := ih h.tail hvalue (.zero _) hseen
      refine ⟨v', (a.1, w) :: l', hv', h.cons hw hl' hkeys, hkeys.cons_cons _, ?_, ?_⟩
      · simp only [length_writtenAttributes_cons]
        omega
      · rw [hshown, writtenAttributes_cons]
        exact congrArg (fun y => v' ++ (betweenValues a.1 ++ y)) heq'
    · rw [hhidden, hindex (List.length_map _)] at hseen
      obtain ⟨w, l', hw, hl', hkeys, hlen, heq'⟩ := ih h.tail hvalue hend'' hseen
      refine ⟨v' ++ ((betweenValues a.1).map veiled ++ w), l', ?_, hl', hkeys.cons _, ?_, ?_⟩
      · simp only [List.mem_append, not_or]
        exact ⟨hv', Hides.not_mem_map_veiled (by decide) _, hw⟩
      · rw [length_writtenAttributes_cons, List.length_append, List.length_append,
          List.length_map]
        omega
      · rw [hhidden, heq']
        simp only [List.append_assoc]

variable (close x) in
/-- **What is seen of a written opening tag** is an opening tag of the same length, as long as its
bracket is seen. -/
theorem exists_veil_written (h : AreQuoted l) (hclose : '<' ∉ close ∧ '>' ∉ close)
    (hseen : (Text.veil ("<ref".toList ++ (writtenAttributes l ++ (close ++ '>' :: x))))[refHead +
      ((writtenAttributes l).length + close.length)]? = some '>') :
    ∃ l', AreQuoted l' ∧ (writtenAttributes l').length = (writtenAttributes l).length ∧
      Text.veil ("<ref".toList ++ (writtenAttributes l ++ (close ++ '>' :: x))) =
        "<ref".toList ++ (writtenAttributes l' ++ (close ++ '>' :: x.veil)) := by
  have hhead : ∀ (u : Text) {y : Text}, '<' ∉ u →
      Text.veil ("<ref".toList ++ (u ++ y)) = "<ref".toList ++ (u ++ y.veil) := fun u y hu => by
    have htag := veil_append_of_tag (c := 'r') (u := "ef".toList ++ u) (by decide)
      (by simpa using hu) y
    simpa using htag
  cases l with
  | nil =>
    refine ⟨[], h, rfl, ?_⟩
    have hnil : writtenAttributes [] = [] := rfl
    rw [hnil, List.nil_append, hhead _ hclose.1, veil_bracket]
    rfl
  | cons a l =>
    have hplain : '<' ∉ ' ' :: (a.1 ++ "=\"".toList) := by
      have hkey := (key_cases (h.keys a List.mem_cons_self)).1
      simp [not_mem_of_isKey (d := '<') hkey (by decide)]
    have hshape : ∀ (b : Text × Text) (m : Attributes) (y : Text), b.1 = a.1 →
        writtenAttributes (b :: m) ++ y =
          ' ' :: (a.1 ++ "=\"".toList) ++ (b.2 ++ '"' :: (writtenAttributes m ++ y)) := by
      intro b m y hb
      simp [writtenAttributes, writtenAttribute, hb]
    have hlength := length_writtenAttributes_cons a l
    rw [hshape a l _ rfl, hhead _ hplain] at hseen ⊢
    have hindex : ∀ y : Text, ("<ref".toList ++ (' ' :: (a.1 ++ "=\"".toList) ++ y))[refHead +
        ((writtenAttributes (a :: l)).length + close.length)]? =
          y[a.2.length + ((writtenAttributes l).length + close.length + 1)]? := by
      intro y
      have hfront : ("<ref".toList ++ ' ' :: (a.1 ++ "=\"".toList)).length = a.1.length + 7 := by
        simp
      rw [← List.append_assoc, List.getElem?_append_right (by rw [hfront, hlength, refHead]; omega),
        hfront, hlength, refHead]
      congr 1
      omega
    rw [hindex] at hseen
    obtain ⟨w, l', hw, hl', hkeys, hlen, heq⟩ := exists_veilFrom_values h.tail
      (h.unquoted a List.mem_cons_self) hclose (.zero _) hseen
    refine ⟨(a.1, w) :: l', h.cons hw hl' hkeys, ?_, ?_⟩
    · simp only [length_writtenAttributes_cons]
      omega
    · rw [hshape (a.1, w) l' _ rfl]
      exact congrArg (fun y => "<ref".toList ++ (' ' :: (a.1 ++ "=\"".toList) ++ y)) heq

/-! ## 2. What is read -/

/-- The text is read as one tag and nothing else: it goes over the whole text and has the name, the
group and the content. -/
def ReadsAs (s : Text) (name group : Option Text) (content : Content) : Prop :=
  ∃ t, (Page.ofText s).refTags = [t] ∧ t.span = Span.ofLength 0 s.length ∧
    t.name? = name ∧ t.group? = group ∧ t.content = content

/-- The bracket that ends the first `n` characters of a text is seen. -/
def ShowsBracket (s : Text) (n : Nat) : Prop := s.veil[n - 1]? = some '>'

instance (s : Text) (n : Nat) : Decidable (ShowsBracket s n) :=
  inferInstanceAs (Decidable (_ = _))

section Empty

variable {tag : RefTag}

/-- A rule that finds the whole text finds nothing else. -/
theorem scan_whole {α : Type} (rule : Option Char → Text → Verdict α) {s : Text} {a : α}
    (hs : s ≠ []) (h : rule none s = .found s.length a) :
    scan rule s = [⟨Span.ofLength 0 s.length, a⟩] := by
  have hfound : scanFrom rule 0 0 none (s ++ []) = _ :=
    scanFrom_found hs (by rw [List.append_nil]; exact h)
  rw [List.append_nil] at hfound
  rw [scan, hfound]
  rfl

/-- What is seen of a written tag without content is one of the same length, as long as its bracket
is seen. -/
theorem exists_veil_writtenEmptyTag (h : AreQuoted l)
    (hseen : ShowsBracket (writtenEmptyTag l) (writtenEmptyTag l).length) :
    ∃ l', AreQuoted l' ∧ (writtenAttributes l').length = (writtenAttributes l).length ∧
      (writtenEmptyTag l).veil = writtenEmptyTag l' := by
  have hshape : ∀ m, writtenEmptyTag m =
      "<ref".toList ++ (writtenAttributes m ++ (" /".toList ++ '>' :: [])) := fun m => rfl
  obtain ⟨l', hl', hlength, hveil⟩ := exists_veil_written " /".toList [] h
    (by decide) (by
      rw [← hshape, ← hseen, length_writtenEmptyTag]
      congr 1)
  have hnil : Text.veil [] = [] := rfl
  rw [← hshape, hnil, ← hshape] at hveil
  exact ⟨l', hl', hlength, hveil⟩

/-- **What is read of a written tag without content** whose bracket is seen, apart from tags with
content. -/
theorem emptyFindings_of_written (h : AreQuoted l)
    (hseen : ShowsBracket (writtenEmptyTag l) (writtenEmptyTag l).length) :
    (Page.ofText (writtenEmptyTag l)).emptyFindings =
      [⟨Span.ofLength 0 (writtenEmptyTag l).length, Attributes.trimmed l, .none⟩] := by
  obtain ⟨l', hl', hlength, hveil⟩ := exists_veil_writtenEmptyTag h hseen
  have hwhole : (writtenEmptyTag l').length = (writtenEmptyTag l).length := by
    rw [length_writtenEmptyTag, length_writtenEmptyTag, hlength]
  have hopening := refOpening?_empty hl' []
  rw [List.append_nil] at hopening
  have hrule : emptyTagRule (writtenEmptyTag l') = .found (writtenEmptyTag l').length
      ⟨(writtenAttributes l').length + 1, true, (writtenAttributes l').length + 3⟩ := by
    rw [length_writtenEmptyTag, emptyTagRule, writtenEmptyTag_eq, hopening]
    rfl
  have hscan := scan_whole (fun _ => emptyTagRule) (by simp [writtenEmptyTag_eq]) hrule
  have hslice : (writtenEmptyTag l).slice refHead
      (refHead + ((writtenAttributes l').length + 1)) = writtenAttributes l ++ [' '] := by
    rw [writtenEmptyTag_eq_blank, hlength]
    exact Text.slice_between _ _ _ rfl (by simp; rfl)
  have hattributes := Attributes.ofText_quoted h [' '] (by decide)
  rw [← hslice] at hattributes
  have hpage : (Page.ofText (writtenEmptyTag l)).seen = writtenEmptyTag l' := hveil
  rw [Page.emptyFindings, hpage, hscan, ← hwhole]
  simp only [List.map_cons, List.map_nil, Page.emptyTag, Page.attributesOf, Page.ofText,
    Span.start_ofLength, Nat.zero_add, hattributes]

/-- A tag without content that goes over the whole text ends with a bracket that is seen. -/
theorem showsBracket_of_emptyTag {s : Text} (h : tag ∈ (Page.ofText s).emptyTags)
    (hspan : tag.span = Span.ofLength 0 s.length) : ShowsBracket s s.length := by
  rw [Page.emptyTags_eq] at h
  obtain ⟨f, hf, rfl⟩ := List.mem_map.mp (List.mem_filter.mp h).1
  obtain ⟨i, n, _, -, hr, hs⟩ := exists_of_mem_scan hf
  have hspan' : Span.ofLength (0 + i) n = Span.ofLength 0 s.length := hs ▸ hspan
  obtain ⟨hi, hn⟩ := Span.mk.inj hspan'
  obtain rfl : i = 0 := by omega
  obtain rfl : n = s.length := by omega
  rw [List.drop_zero] at hr
  have hlength := (emptyTagRule_found hr).1
  unfold emptyTagRule at hr
  split at hr
  · rename_i o rest ho
    split at hr
    · obtain rfl := (Verdict.found.inj hr).2
      have hbracket := bracket_of_refOpening? ho
      rw [← hlength] at hbracket
      exact hbracket
    · cases hr
  · cases hr

end Empty

section Full

variable {body : Text} {tag : RefTag}

/-- **What is read of a written tag with content** whose opening is seen to end. -/
theorem refTags_of_written (h : AreQuoted l) (hbody : '<' ∉ body)
    (hseen : ShowsBracket (writtenTag l body) (writtenOpening l).length) :
    (Page.ofText (writtenTag l body)).refTags =
      [⟨Span.ofLength 0 (writtenTag l body).length, Attributes.trimmed l,
        .body body (writtenOpening l).length⟩] := by
  have hshape : ∀ m, writtenTag m body =
      "<ref".toList ++ (writtenAttributes m ++ ([] ++ '>' :: (body ++ closingTag))) := fun m => by
    rw [writtenTag_eq, List.nil_append]
  obtain ⟨l', hl', hlength, hveil⟩ := exists_veil_written [] (body ++ closingTag) h
    (by decide) (by
      rw [← hshape, ← hseen, length_writtenOpening]
      congr 1)
  have hclosing : (body ++ closingTag).veil = body ++ closingTag := by
    rw [veil_append_of_untagged hbody]
    rfl
  rw [hclosing, ← hshape, ← hshape] at hveil
  have hopening : (writtenOpening l').length = (writtenOpening l).length := by
    rw [length_writtenOpening, length_writtenOpening, hlength]
  have hwhole : (writtenTag l' body).length = (writtenTag l body).length := by
    simp [writtenTag, hopening]
  have hrule : fullTagRule (writtenTag l' body) = .found (writtenTag l' body).length
      (⟨(writtenAttributes l').length, false, (writtenAttributes l').length + 1⟩,
        body.length) := by
    have hread := refOpening?_written hl' (body ++ closingTag)
    rw [fullTagRule, hshape, List.nil_append, hread]
    simp only [until?_untagged hbody]
    rfl
  have hpage : (Page.ofText (writtenTag l body)).seen = writtenTag l' body := hveil
  have hscan := scan_whole (fun _ => fullTagRule)
    (by simp [writtenTag_eq]) hrule
  have hslice : (writtenTag l body).slice refHead (refHead + (writtenAttributes l').length) =
      writtenAttributes l := by
    rw [hshape, hlength]
    exact Text.slice_between _ _ _ rfl rfl
  have hcontent : (writtenTag l body).slice (writtenOpening l).length
      ((writtenOpening l).length + body.length) = body := by
    rw [writtenTag, List.append_assoc]
    exact Text.slice_between _ _ _ rfl rfl
  have hattributes := Attributes.ofText_quoted h [] (by decide)
  rw [List.append_nil, ← hslice, hlength] at hattributes
  have hfull : (Page.ofText (writtenTag l body)).fullTags =
      [⟨Span.ofLength 0 (writtenTag l body).length, Attributes.trimmed l,
        .body body (writtenOpening l).length⟩] := by
    rw [Page.fullTags_eq, hpage, hscan, ← hwhole]
    rw [length_writtenOpening] at hcontent ⊢
    simp only [List.map_cons, List.map_nil, Page.fullTag, Page.attributesOf, Page.ofText,
      Span.start_ofLength, Nat.zero_add, hattributes, hlength, hcontent]
  -- whatever else is found begins in this tag
  have hempty : (Page.ofText (writtenTag l body)).emptyTags = [] := by
    rw [Page.emptyTags_eq, List.filter_eq_nil_iff]
    intro e he
    have hlt : e.span.start < (writtenTag l body).length := Page.start_lt_of_mem_emptyFindings he
    rw [hfull, List.any_cons, Bool.or_eq_true_iff.mpr (.inl (Span.contains_iff.mpr ⟨?_, ?_⟩))]
    · decide
    · exact Nat.zero_le _
    · rw [Span.stop_ofLength, Nat.zero_add]
      exact hlt
  rw [Page.refTags_eq, hfull, hempty]
  rfl

/-- A tag with content that goes over the whole text has an opening that is seen to end where its
body begins. -/
theorem showsBracket_of_fullTag {s : Text} {start : Nat} (h : tag ∈ (Page.ofText s).fullTags)
    (hspan : tag.span = Span.ofLength 0 s.length) (hbody : tag.content = .body body start) :
    ShowsBracket s start := by
  rw [Page.fullTags_eq] at h
  obtain ⟨f, hf, rfl⟩ := List.mem_map.mp h
  obtain ⟨i, n, _, -, hr, hs⟩ := exists_of_mem_scan hf
  have hspan' : Span.ofLength (0 + i) n = Span.ofLength 0 s.length := hs ▸ hspan
  obtain ⟨hi, -⟩ := Span.mk.inj hspan'
  obtain rfl : i = 0 := by omega
  have hstart : f.span.start = 0 := by rw [hs]; rfl
  obtain ⟨-, rfl⟩ := Content.body.inj hbody
  rw [List.drop_zero] at hr
  unfold fullTagRule at hr
  split at hr
  · rename_i o rest ho
    split at hr
    · cases hr
    · split at hr
      · have hvalue := (Verdict.found.inj hr).2
        rw [hstart, ← hvalue, Nat.zero_add]
        exact bracket_of_refOpening? ho
      · cases hr
  · cases hr

end Full

/-! ## 3. References -/

section References

variable {name : Text} {group : Option Text} {body : Text}

/-- Neither the name nor the group has a quote. -/
def AreUnquoted (name : Text) (group : Option Text) : Prop := '"' ∉ name ∧ ∀ g ∈ group, '"' ∉ g

/-- The attributes of a written reference say its name and its group exactly if these have no
quotes. -/
theorem value?_writtenReference_iff (hname : IsValue name) (hgroup : ∀ g ∈ group, IsValue g) :
    (writtenReference (some name) group).value? "name".toList = some name ∧
        (writtenReference (some name) group).value? "group".toList = group ↔
      AreUnquoted name group := by
  have hone : ∀ {v : Text}, IsValue v →
      (Text.nonempty? (Text.trim (escapedAttribute v)) = some v ↔ '"' ∉ v) := by
    intro v hv
    rw [← Attributes.trim_escapedAttribute_iff hv.trimmed]
    constructor
    · exact eq_of_nonempty?
    · intro heq
      rw [heq]
      exact nonempty?_of_ne hv.nonempty
  have hne : ("group".toList : Text) ≠ "name".toList := by decide
  refine and_congr ?_ ?_
  · rw [Attributes.value?, lookup_writtenReference, if_pos rfl, Option.bind_some,
      nonempty?_of_ne hname.nonempty, Option.map_some, Option.bind_some]
    exact hone hname
  · rw [Attributes.value?, lookup_writtenReference, if_neg hne, if_pos rfl]
    cases group with
    | none => simp
    | some g =>
      have hg := hgroup g rfl
      rw [Option.bind_some, nonempty?_of_ne hg.nonempty, Option.map_some, Option.bind_some,
        hone hg]
      simp

/-- What stands behind the first quote of a tag that cites: the name, the group, and the end of the
tag. -/
def quotedValues (name : Text) (group : Option Text) : Text :=
  name ++ (match group with
    | some g => "\" group=\"".toList ++ g
    | none => []) ++ "\" />".toList

theorem escapedAttribute_eq_self {v : Text} (hv : '"' ∉ v) : escapedAttribute v = v := by
  induction v with
  | nil => rfl
  | cons c v ih =>
    obtain ⟨hc, hv⟩ := not_or.mp (List.mem_cons.not.mp hv)
    have hcons : escapedAttribute (c :: v) = c :: escapedAttribute v := by
      rw [escapedAttribute, List.flatMap_cons, if_neg (Ne.symm hc)]
      rfl
    rw [hcons, ih hv]

theorem citation_eq_quotedValues (hname : IsValue name) (hgroup : ∀ g ∈ group, IsValue g)
    (hplain : AreUnquoted name group) :
    citation (some name) group false = "<ref name=\"".toList ++ quotedValues name group := by
  rw [citation_eq_writtenEmptyTag group hname.nonempty]
  cases group with
  | none =>
    simp [writtenEmptyTag_eq, escapedAttributes, referenceAttributes, writtenAttributes,
      writtenAttribute, quotedValues, nonempty?_of_ne hname.nonempty,
      escapedAttribute_eq_self hplain.1]
  | some g =>
    simp [writtenEmptyTag_eq, escapedAttributes, referenceAttributes, writtenAttributes,
      writtenAttribute, quotedValues, nonempty?_of_ne hname.nonempty,
      nonempty?_of_ne (hgroup g rfl).nonempty, escapedAttribute_eq_self hplain.1,
      escapedAttribute_eq_self (hplain.2 g rfl)]

/-- **A tag with content is read in a tag that cites only if one stands in its values.** -/
theorem fullTags_citation_iff (hname : IsValue name) (hgroup : ∀ g ∈ group, IsValue g)
    (hplain : AreUnquoted name group)
    (hseen : ShowsBracket (citation (some name) group false)
      (citation (some name) group false).length) :
    (Page.ofText (citation (some name) group false)).fullTags = [] ↔
      ¬HoldsFullTag (quotedValues name group).veil := by
  have hveil : (citation (some name) group false).veil =
      "<ref name=\"".toList ++ (quotedValues name group).veil := by
    rw [citation_eq_quotedValues hname hgroup hplain]
    exact veil_append_of_tag (c := 'r') (u := "ef name=\"".toList) (by decide) (by decide) _
  -- the tag itself has no content
  have hpass : ¬BeginsFullTag (citation (some name) group false).veil := by
    rw [citation_eq_writtenEmptyTag group hname.nonempty] at hseen ⊢
    obtain ⟨l', hl', -, heq⟩ :=
      exists_veil_writtenEmptyTag (areQuoted_escaped (some name) group) hseen
    have hopening := refOpening?_empty hl' []
    rw [List.append_nil] at hopening
    rw [heq, ← fullTagRule_eq_pass_iff, fullTagRule, writtenEmptyTag_eq, hopening]
    rfl
  have hiff : HoldsFullTag (citation (some name) group false).veil ↔
      HoldsFullTag (quotedValues name group).veil := by
    constructor
    · rintro ⟨v, hv, htag⟩
      rw [hveil] at hv hpass
      rcases List.suffix_cons_iff.mp hv with rfl | hv
      · exact absurd htag hpass
      · exact HoldsFullTag.of_append (u := "ref name=\"".toList) (by decide) ⟨v, hv, htag⟩
    · rw [hveil]
      exact fun h => h.append_left _
  exact (Page.fullTags_eq_nil_iff _).trans (not_congr hiff)

theorem readsAs_citation_iff (hname : IsValue name) (hgroup : ∀ g ∈ group, IsValue g) :
    ReadsAs (citation (some name) group false) (some name) group .none ↔
      AreUnquoted name group ∧
        ShowsBracket (citation (some name) group false)
          (citation (some name) group false).length ∧
        ¬HoldsFullTag (quotedValues name group).veil := by
  rw [and_congr_right fun hplain => and_congr_right fun hseen =>
    (fullTags_citation_iff hname hgroup hplain hseen).symm]
  have hvalues := value?_writtenReference_iff hname hgroup
  rw [citation_eq_writtenEmptyTag group hname.nonempty]
  generalize hs : writtenEmptyTag (escapedAttributes (some name) group) = s
  -- the tag that is read if its bracket is seen and no tag with content is read
  have hread : ShowsBracket s s.length → (Page.ofText s).fullTags = [] →
      (Page.ofText s).refTags =
        [⟨Span.ofLength 0 s.length, writtenReference (some name) group, .none⟩] := by
    intro hseen hfull
    subst hs
    rw [Page.refTags_eq, Page.emptyTags_eq, hfull,
      emptyFindings_of_written (areQuoted_escaped (some name) group) hseen]
    rfl
  constructor
  · rintro ⟨tag, htags, hspan, htag, htag', hnone⟩
    have hfull : (Page.ofText s).fullTags = [] := by
      refine List.eq_nil_iff_forall_not_mem.mpr fun f hf => ?_
      have hmem := Page.mem_refTags.mpr (.inl hf)
      rw [htags] at hmem
      obtain rfl := List.mem_singleton.mp hmem
      have hisFull := Page.isFull_of_mem_fullTagsBetween hf
      rw [RefTag.isFull, hnone] at hisFull
      cases hisFull
    have hempty := (Page.mem_refTags.mp (htags ▸ List.mem_singleton_self tag)).resolve_left
      (hfull ▸ List.not_mem_nil)
    have hseen := showsBracket_of_emptyTag hempty hspan
    rw [hread hseen hfull] at htags
    obtain rfl := List.singleton_inj.mp htags
    exact ⟨hvalues.mp ⟨htag, htag'⟩, hseen, hfull⟩
  · rintro ⟨hplain, hseen, hfull⟩
    obtain ⟨hvalue, hvalue'⟩ := hvalues.mpr hplain
    exact ⟨_, hread hseen hfull, rfl, hvalue, hvalue', rfl⟩

theorem readsAs_tagAround_iff (hname : IsValue name) (hgroup : ∀ g ∈ group, IsValue g)
    (hbody : '<' ∉ body) :
    ReadsAs (tagAround (some name) group body) (some name) group
        (.body body (openingTag (some name) group).length) ↔
      AreUnquoted name group ∧
        ShowsBracket (tagAround (some name) group body)
          (openingTag (some name) group).length := by
  have hquoted := areQuoted_escaped (some name) group
  have hvalues := value?_writtenReference_iff hname hgroup
  have hopening : openingTag (some name) group =
      writtenOpening (escapedAttributes (some name) group) := by
    rw [openingTag, tagHead_escaped, writtenOpening_eq, List.append_assoc]
  rw [tagAround_eq_writtenTag, hopening]
  constructor
  · rintro ⟨tag, htags, hspan, htag, htag', hcontent⟩
    have hfull := Page.mem_fullTagsBetween (htags ▸ List.mem_singleton_self tag)
      (by rw [RefTag.isFull, hcontent])
    have hseen := showsBracket_of_fullTag hfull hspan hcontent
    rw [refTags_of_written hquoted hbody hseen] at htags
    obtain rfl := List.singleton_inj.mp htags
    exact ⟨hvalues.mp ⟨htag, htag'⟩, hseen⟩
  · rintro ⟨hplain, hseen⟩
    obtain ⟨hvalue, hvalue'⟩ := hvalues.mpr hplain
    exact ⟨_, refTags_of_written hquoted hbody hseen, rfl, hvalue, hvalue', rfl⟩

/-- **Tags of references are read back.**  A tag that cites is read as itself exactly if its values
hold no quote, its bracket is seen, and no tag with content stands in name and group as they are
seen: an opening tag and behind it a closing tag.  A tag around a body without brackets is read as
itself exactly if its values hold no quote and the bracket of its opening is seen. -/
theorem tags_read_back_iff (hname : IsValue name) (hgroup : ∀ g ∈ group, IsValue g)
    (hbody : '<' ∉ body) :
    (ReadsAs (citation (some name) group false) (some name) group .none ↔
      AreUnquoted name group ∧
        ShowsBracket (citation (some name) group false)
          (citation (some name) group false).length ∧
        ¬HoldsFullTag (quotedValues name group).veil) ∧
    (ReadsAs (tagAround (some name) group body) (some name) group
        (.body body (openingTag (some name) group).length) ↔
      AreUnquoted name group ∧
        ShowsBracket (tagAround (some name) group body)
          (openingTag (some name) group).length) :=
  ⟨readsAs_citation_iff hname hgroup, readsAs_tagAround_iff hname hgroup hbody⟩

/-- A bracket in the name and a comment that goes from the name into the group do no harm. -/
theorem hidden_quotes_read_back :
    ReadsAs (citation (some "a<!--".toList) (some "-->g".toList) false) (some "a<!--".toList)
        (some "-->g".toList) .none ∧
      ReadsAs (tagAround (some "a<!--".toList) (some "-->g".toList) "body".toList)
        (some "a<!--".toList) (some "-->g".toList) (.body "body".toList 31) := by
  have hplain : AreUnquoted "a<!--".toList (some "-->g".toList) := by
    refine ⟨by decide, fun g hg => ?_⟩
    obtain rfl := Option.mem_some.mp hg
    decide
  have hgroup : ∀ g ∈ some "-->g".toList, IsValue g := fun g hg => by
    obtain rfl := Option.mem_some.mp hg
    decide
  have hname : IsValue "a<!--".toList := by decide
  have hbody : '<' ∉ "body".toList := by decide
  obtain ⟨hcitation, htag⟩ := tags_read_back_iff hname hgroup hbody
  have hnone : ¬HoldsFullTag (quotedValues "a<!--".toList (some "-->g".toList)).veil :=
    fun h => absurd h.infix (by decide +kernel)
  exact ⟨hcitation.mpr ⟨hplain, by decide, hnone⟩, htag.mpr ⟨hplain, by decide⟩⟩

/-- A name with a quote comes back with an entity in its place. -/
theorem quote_read_as_entity : ¬ ∀ (name : Text) (group : Option Text) (body : Text),
    IsValue name → (∀ g ∈ group, IsValue g) → '<' ∉ body →
      ReadsAs (citation (some name) group false) (some name) group .none ∧
        ReadsAs (tagAround (some name) group body) (some name) group
          (.body body (openingTag (some name) group).length) := by
  intro h
  obtain ⟨⟨tag, htags, -, hname, -⟩, -⟩ :=
    h "a\"b".toList none [] (by decide) (by simp) (by simp)
  have hread : (Page.ofText (citation (some "a\"b".toList) none false)).refTags.map (·.name?) =
      [some "a&quot;b".toList] := by decide
  rw [htags, List.map_singleton, hname] at hread
  exact absurd hread (by decide)

end References

end CiteMarkup
