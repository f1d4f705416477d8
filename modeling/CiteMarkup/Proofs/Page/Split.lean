import CiteMarkup.Proofs.Page.Marks
import CiteMarkup.Proofs.Text.Split
/-!
# Pages one behind the other

If nothing that begins on a page depends on what stands behind it (`Page.SplitsOff`), the marks
of the page and another one behind it are the marks of the two (`Page.tokens_append`).  A text
is such a page by itself if the veil does not depend on what stands behind it either
(`SelfContained`); then the marks of a longer text are those of its parts
(`SelfContained.tokens_append`).
-/

namespace CiteMarkup

/-! ## 1. Marks at another place -/

/-- The tag, `n` characters further on. -/
def RefTag.shift (n : Nat) (t : RefTag) : RefTag :=
  { t with
    span := t.span.shift n
    content := match t.content with
      | .none => .none
      | .body text start => .body text (n + start) }

/-- The invocation, `n` characters further on. -/
def Template.shift (n : Nat) (t : Template) : Template :=
  { t with span := t.span.shift n, paramsStart := n + t.paramsStart }

/-- The mark, `n` characters further on. -/
def Token.shift (n : Nat) : Token → Token
  | .tag t => .tag (t.shift n)
  | .chain t => .chain (t.shift n)
  | .locator t => .locator (t.shift n)
  | .list t => .list (t.shift n)

section Shift

variable (n : Nat)

@[simp] theorem RefTag.span_shift (t : RefTag) : (t.shift n).span = t.span.shift n := rfl

@[simp] theorem RefTag.isFull_shift (t : RefTag) : (t.shift n).isFull = t.isFull := by
  obtain ⟨span, attributes, content⟩ := t
  cases content <;> rfl

@[simp] theorem Template.span_shift (t : Template) : (t.shift n).span = t.span.shift n := rfl

@[simp] theorem Token.span_shift (k : Token) : (k.shift n).span = k.span.shift n := by
  cases k <;> rfl

theorem Token.ofTemplate_shift (t : Template) :
    ofTemplate (t.shift n) = (ofTemplate t).shift n := by
  have hname : (t.shift n).canonical = t.canonical := rfl
  unfold ofTemplate
  rw [hname]
  split <;> rfl

@[simp] theorem Span.contains_shift (s : Span) (i : Nat) :
    (s.shift n).contains (n + i) = s.contains i := by
  simp [Span.contains, Span.shift]

/-- A stretch that is further on does not go over what stands before. -/
theorem Span.contains_shift_of_lt (s : Span) {i : Nat} (h : i < n) :
    (s.shift n).contains i = false := by
  rw [Bool.eq_false_iff, Ne, Span.contains_iff, Span.start_shift]
  omega

end Shift

namespace Page

/-! ## 2. Two pages -/

/-- One page behind the other. -/
def append (p q : Page) : Page :=
  ⟨p.raw ++ q.raw, p.seen ++ q.seen, by simp [p.aligned, q.aligned]⟩

variable {p q : Page} {names : List Text} {wanted : Text → Bool}

theorem slice_append_left {a b : Nat} (h : b ≤ p.raw.length) :
    (p.append q).slice a b = p.slice a b := by
  have hseen : b ≤ p.seen.length := by rwa [p.aligned]
  simp only [slice, append, Text.slice_append_left _ _ h, Text.slice_append_left _ _ hseen]

theorem slice_append_right (a b : Nat) :
    (p.append q).slice (p.raw.length + a) (p.raw.length + b) = q.slice a b := by
  have hseen := Text.slice_append_right p.seen q.seen a b
  rw [p.aligned] at hseen
  simp only [slice, append, Text.slice_append_right, hseen]

/-- Nothing that begins on the page depends on what stands behind it. -/
structure SplitsOff (names : List Text) (p : Page) : Prop where
  full : Splits fullTagRule p.seen
  empty : Splits emptyTagRule p.seen
  lists : Splits (invocationRule (isNameOf names)) p.seen
  cites : Splits (invocationRule (isNameOf [chainName, locatorName])) p.seen

/-! ## 3. Templates -/

theorem found_of_mem_scan {f : Found Heading}
    (h : f ∈ scan (fun _ => invocationRule wanted) p.seen) :
    f.span.stop ≤ p.raw.length ∧ f.span.start + 2 + f.value.nameLength + 2 ≤ f.span.stop := by
  obtain ⟨i, n, _, hi, hr, hs⟩ := exists_of_mem_scan h
  obtain ⟨hle, -, hlo, hhi, -⟩ := invocationRule_found hr
  rw [List.length_drop, p.aligned] at hle
  rw [p.aligned] at hi
  rw [hs, Span.start_ofLength, Span.stop_ofLength]
  omega

theorem invocation_append_left {f : Found Heading}
    (h : f ∈ scan (fun _ => invocationRule wanted) p.seen) :
    (p.append q).invocation f = p.invocation f := by
  obtain ⟨hstop, hroom⟩ := found_of_mem_scan h
  have hname : (p.append q).raw.slice (f.span.start + 2) (f.span.start + 2 + f.value.nameLength) =
      p.raw.slice (f.span.start + 2) (f.span.start + 2 + f.value.nameLength) :=
    Text.slice_append_left _ _ (by omega)
  simp only [invocation, hname, slice_append_left (p := p) (q := q) (b := f.span.stop - 2)
    (by omega)]

theorem invocation_append_right {f : Found Heading}
    (h : f ∈ scan (fun _ => invocationRule wanted) q.seen) :
    (p.append q).invocation (f.shift p.raw.length) = (q.invocation f).shift p.raw.length := by
  obtain ⟨-, hroom⟩ := found_of_mem_scan h
  have hname : (p.append q).raw.slice (p.raw.length + f.span.start + 2)
      (p.raw.length + f.span.start + 2 + f.value.nameLength) =
        q.raw.slice (f.span.start + 2) (f.span.start + 2 + f.value.nameLength) := by
    rw [Nat.add_assoc, Nat.add_assoc]
    exact Text.slice_append_right p.raw q.raw _ _
  have hstop : p.raw.length + f.span.stop - 2 = p.raw.length + (f.span.stop - 2) := by omega
  have hinner := fun a => slice_append_right (p := p) (q := q) a (f.span.stop - 2)
  cases hb : f.value.hasBar with
  | true =>
    have hbar : p.raw.length + f.span.start + 2 + f.value.nameLength + 1 =
        p.raw.length + (f.span.start + 2 + f.value.nameLength + 1) := by omega
    simp [invocation, Found.shift, Template.shift, hb, hname, hbar, hstop, hinner]
  | false => simp [invocation, Found.shift, Template.shift, hb, hname, hstop, hinner]

theorem templatesWhere_append (h : Splits (invocationRule wanted) p.seen) :
    (p.append q).templatesWhere wanted =
      p.templatesWhere wanted ++ (q.templatesWhere wanted).map (Template.shift p.raw.length) := by
  rw [templatesWhere, append, h q.seen, List.map_append, List.map_map, p.aligned]
  congr 1
  · exact List.map_congr_left fun f hf => invocation_append_left hf
  · rw [templatesWhere, List.map_map]
    exact List.map_congr_left fun f hf => invocation_append_right hf

/-! ## 4. Tags -/

theorem attributesOf_append_left (start : Nat) (o : Opening)
    (h : start + refHead + o.attributes ≤ p.raw.length) :
    (p.append q).attributesOf start o = p.attributesOf start o := by
  rw [attributesOf, attributesOf, append, Text.slice_append_left _ _ h]

theorem attributesOf_append_right (start : Nat) (o : Opening) :
    (p.append q).attributesOf (p.raw.length + start) o = q.attributesOf start o := by
  rw [attributesOf, attributesOf, append, Nat.add_assoc, Nat.add_assoc, Nat.add_assoc,
    Text.slice_append_right]

theorem fullTag_append_left {f : Found (Opening × Nat)}
    (h : f ∈ scan (fun _ => fullTagRule) p.seen) : (p.append q).fullTag f = p.fullTag f := by
  obtain ⟨i, n, _, hi, hr, hs⟩ := exists_of_mem_scan h
  obtain ⟨hlen, hle, -⟩ := fullTagRule_found (o := f.value.1) (k := f.value.2) hr
  have hattr := attributes_lt_of_fullTagRule (o := f.value.1) (k := f.value.2) hr
  have hstart : f.span.start = i := by rw [hs, Span.start_ofLength, Nat.zero_add]
  rw [List.length_drop, p.aligned] at hle
  rw [p.aligned] at hi
  have hbody : (p.append q).raw.slice (f.span.start + refHead + f.value.1.length)
      (f.span.start + refHead + f.value.1.length + f.value.2) =
        p.raw.slice (f.span.start + refHead + f.value.1.length)
          (f.span.start + refHead + f.value.1.length + f.value.2) :=
    Text.slice_append_left _ _ (by omega)
  simp only [fullTag, hbody,
    attributesOf_append_left (p := p) (q := q) f.span.start f.value.1 (by omega)]

theorem fullTag_append_right (f : Found (Opening × Nat)) :
    (p.append q).fullTag (f.shift p.raw.length) = (q.fullTag f).shift p.raw.length := by
  have hbody : ∀ a b, (p.append q).raw.slice (p.raw.length + a) (p.raw.length + b) =
      q.raw.slice a b := Text.slice_append_right p.raw q.raw
  simp only [fullTag, Found.shift, Span.start_shift, attributesOf_append_right, RefTag.shift,
    Nat.add_assoc, hbody]

theorem emptyTag_append_left {f : Found Opening}
    (h : f ∈ scan (fun _ => emptyTagRule) p.seen) : (p.append q).emptyTag f = p.emptyTag f := by
  obtain ⟨i, n, _, hi, hr, hs⟩ := exists_of_mem_scan h
  obtain ⟨hlen, -, hle, -⟩ := emptyTagRule_found hr
  have hattr := attributes_lt_of_emptyTagRule hr
  have hstart : f.span.start = i := by rw [hs, Span.start_ofLength, Nat.zero_add]
  rw [List.length_drop, p.aligned] at hle
  rw [p.aligned] at hi
  simp only [emptyTag,
    attributesOf_append_left (p := p) (q := q) f.span.start f.value (by omega)]

theorem emptyTag_append_right (f : Found Opening) :
    (p.append q).emptyTag (f.shift p.raw.length) = (q.emptyTag f).shift p.raw.length := by
  simp only [emptyTag, Found.shift, Span.start_shift, attributesOf_append_right, RefTag.shift]

/-- The tags with content of a page. -/
def fullTags (p : Page) : List RefTag := p.fullTagsBetween 0 p.raw.length

/-- The tags without content of a page, those inside tags with content too. -/
def emptyFindings (p : Page) : List RefTag :=
  (scan (fun _ => emptyTagRule) p.seen).map p.emptyTag

/-- The tags without content of a page that begin in no tag with content. -/
def emptyTags (p : Page) : List RefTag := p.emptyTagsBetween 0 p.raw.length

theorem mem_refTags {t : RefTag} : t ∈ p.refTags ↔ t ∈ p.fullTags ∨ t ∈ p.emptyTags :=
  mem_refTagsBetween

theorem fullTags_eq (p : Page) :
    p.fullTags = (scan (fun _ => fullTagRule) p.seen).map p.fullTag := by
  rw [fullTags, fullTagsBetween, ← p.aligned, Text.slice_length, List.drop_zero]

theorem emptyTags_eq (p : Page) :
    p.emptyTags = p.emptyFindings.filter fun e =>
      !p.fullTags.any fun f => f.span.contains e.span.start := by
  rw [emptyTags, emptyTagsBetween, emptyFindings, fullTags, ← p.aligned, Text.slice_length,
    List.drop_zero]

theorem stop_le_of_mem_fullTags {t : RefTag} (h : t ∈ p.fullTags) :
    t.span.stop ≤ p.raw.length := by
  have hspan := span_of_mem_refTagsBetween (mem_refTagsBetween.mpr (.inl h))
  exact Nat.le_trans hspan.2.2.1 (Nat.min_le_right _ _)

theorem start_lt_of_mem_emptyFindings {t : RefTag} (h : t ∈ p.emptyFindings) :
    t.span.start < p.raw.length := by
  obtain ⟨f, hf, rfl⟩ := List.mem_map.mp h
  obtain ⟨i, n, _, hi, _, hs⟩ := exists_of_mem_scan hf
  change f.span.start < _
  rw [hs, Span.start_ofLength, ← p.aligned]
  omega

theorem fullTags_append (h : Splits fullTagRule p.seen) :
    (p.append q).fullTags = p.fullTags ++ q.fullTags.map (RefTag.shift p.raw.length) := by
  rw [fullTags_eq, fullTags_eq, fullTags_eq, append, h q.seen, List.map_append, List.map_map,
    p.aligned]
  congr 1
  · exact List.map_congr_left fun f hf => fullTag_append_left hf
  · rw [List.map_map]
    exact List.map_congr_left fun f _ => fullTag_append_right f

theorem emptyFindings_append (h : Splits emptyTagRule p.seen) :
    (p.append q).emptyFindings =
      p.emptyFindings ++ q.emptyFindings.map (RefTag.shift p.raw.length) := by
  rw [emptyFindings, append, h q.seen, List.map_append, List.map_map, p.aligned]
  congr 1
  · exact List.map_congr_left fun f hf => emptyTag_append_left hf
  · rw [emptyFindings, List.map_map]
    exact List.map_congr_left fun f _ => emptyTag_append_right f

theorem emptyTags_append (hfull : Splits fullTagRule p.seen)
    (hempty : Splits emptyTagRule p.seen) :
    (p.append q).emptyTags = p.emptyTags ++ q.emptyTags.map (RefTag.shift p.raw.length) := by
  rw [emptyTags_eq, emptyTags_eq, emptyTags_eq, fullTags_append hfull, emptyFindings_append hempty,
    List.filter_append, List.filter_map]
  congr 1
  · -- what begins on the first page is in no tag of the second one
    refine List.filter_congr fun e he => ?_
    have hlt := start_lt_of_mem_emptyFindings he
    simp [List.any_append, List.any_map, Function.comp_def, Span.contains_shift_of_lt _ _ hlt]
  · -- and the other way round
    congr 1
    refine List.filter_congr fun e he => ?_
    have hout :
        (p.fullTags.any fun f => f.span.contains (p.raw.length + e.span.start)) = false := by
      rw [List.any_eq_false]
      intro f hf
      have := stop_le_of_mem_fullTags hf
      rw [Span.contains_iff]
      omega
    simp [List.any_append, List.any_map, Function.comp_def, hout]

/-! ## 5. All marks -/

theorem inList_append_left (h : p.SplitsOff names) {i : Nat} (hi : i < p.raw.length) :
    (p.append q).inList names i = p.inList names i := by
  rw [inList, templates, templatesWhere_append h.lists]
  simp [inList, templates, List.any_append, List.any_map, Function.comp_def,
    Span.contains_shift_of_lt _ _ hi]

theorem inList_append_right (h : p.SplitsOff names) (i : Nat) :
    (p.append q).inList names (p.raw.length + i) = q.inList names i := by
  have hout : (p.templates names).any (·.span.contains (p.raw.length + i)) = false := by
    rw [List.any_eq_false]
    intro t ht
    have := (isInvocation_of_mem_templates ht).stop_le
    rw [Span.contains_iff]
    omega
  rw [inList, templates, templatesWhere_append h.lists, List.any_append]
  rw [← templates, hout, List.any_map]
  simp [inList, templates, Function.comp_def]

theorem mem_refTags_append (h : p.SplitsOff names) {t : RefTag} :
    t ∈ (p.append q).refTags ↔ t ∈ p.refTags ∨ ∃ s ∈ q.refTags, s.shift p.raw.length = t := by
  simp only [mem_refTags, fullTags_append h.full, emptyTags_append h.full h.empty, List.mem_append,
    List.mem_map]
  constructor
  · rintro ((ht | ⟨s, hs, rfl⟩) | ht | ⟨s, hs, rfl⟩)
    · exact .inl (.inl ht)
    · exact .inr ⟨s, .inl hs, rfl⟩
    · exact .inl (.inr ht)
    · exact .inr ⟨s, .inr hs, rfl⟩
  · rintro ((ht | ht) | ⟨s, hs | hs, rfl⟩)
    · exact .inl (.inl ht)
    · exact .inr (.inl ht)
    · exact .inl (.inr ⟨s, hs, rfl⟩)
    · exact .inr (.inr ⟨s, hs, rfl⟩)

theorem start_lt_of_mem_refTags {t : RefTag} (h : t ∈ p.refTags) :
    t.span.start < p.raw.length := by
  have hspan := span_of_mem_refTagsBetween h
  omega

theorem mem_tagMarks_append (h : p.SplitsOff names) {t : RefTag} :
    t ∈ (p.append q).tagMarks names ↔
      t ∈ p.tagMarks names ∨ ∃ s ∈ q.tagMarks names, s.shift p.raw.length = t := by
  simp only [tagMarks, List.mem_filter, mem_refTags_append h]
  constructor
  · rintro ⟨ht | ⟨s, hs, rfl⟩, hout⟩
    · rw [inList_append_left h (start_lt_of_mem_refTags ht)] at hout
      exact .inl ⟨ht, hout⟩
    · rw [RefTag.span_shift, Span.start_shift, inList_append_right h] at hout
      exact .inr ⟨s, ⟨hs, hout⟩, rfl⟩
  · rintro (⟨ht, hout⟩ | ⟨s, ⟨hs, hout⟩, rfl⟩)
    · rw [← inList_append_left (q := q) h (start_lt_of_mem_refTags ht)] at hout
      exact ⟨.inl ht, hout⟩
    · rw [← inList_append_right (p := p) h] at hout
      exact ⟨.inr ⟨s, hs, rfl⟩, hout⟩

/-- A tag with content goes over the offset. -/
def inBody (p : Page) (names : List Text) (i : Nat) : Bool :=
  (p.tagMarks names).any fun f => f.isFull && f.span.contains i

theorem inBody_append_left (h : p.SplitsOff names) {i : Nat} (hi : i < p.raw.length) :
    (p.append q).inBody names i = p.inBody names i := by
  rw [Bool.eq_iff_iff]
  simp only [inBody, List.any_eq_true, mem_tagMarks_append h]
  constructor
  · rintro ⟨t, ht | ⟨s, hs, rfl⟩, hin⟩
    · exact ⟨t, ht, hin⟩
    · rw [RefTag.span_shift, Span.contains_shift_of_lt _ _ hi, Bool.and_false] at hin
      cases hin
  · rintro ⟨t, ht, hin⟩
    exact ⟨t, .inl ht, hin⟩

theorem inBody_append_right (h : p.SplitsOff names) (i : Nat) :
    (p.append q).inBody names (p.raw.length + i) = q.inBody names i := by
  rw [Bool.eq_iff_iff]
  simp only [inBody, List.any_eq_true, mem_tagMarks_append h]
  constructor
  · rintro ⟨t, ht | ⟨s, hs, rfl⟩, hin⟩
    · rw [Bool.and_eq_true, Span.contains_iff] at hin
      have := (span_of_mem_tagMarks ht).2.1
      omega
    · rw [RefTag.span_shift, Span.contains_shift, RefTag.isFull_shift] at hin
      exact ⟨s, hs, hin⟩
  · rintro ⟨s, hs, hin⟩
    refine ⟨_, .inr ⟨s, hs, rfl⟩, ?_⟩
    rwa [RefTag.span_shift, Span.contains_shift, RefTag.isFull_shift]

theorem citeMarks_append (h : p.SplitsOff names) :
    (p.append q).citeMarks names =
      p.citeMarks names ++ (q.citeMarks names).map (Template.shift p.raw.length) := by
  have hcites : ∀ r : Page, r.citeMarks names = (r.templates [chainName, locatorName]).filter
      fun t => !r.inList names t.span.start && !r.inBody names t.span.start := fun _ => rfl
  rw [hcites, hcites, hcites, templates, templatesWhere_append h.cites, List.filter_append,
    List.filter_map]
  congr 1
  · refine List.filter_congr fun t ht => ?_
    have hi := isInvocation_of_mem ht
    have hlt : t.span.start < p.raw.length := Nat.lt_of_lt_of_le hi.start_lt hi.stop_le
    rw [inList_append_left h hlt, inBody_append_left h hlt]
  · congr 1
    refine List.filter_congr fun t _ => ?_
    simp only [Function.comp_def, Template.span_shift, Span.start_shift, inList_append_right h,
      inBody_append_right h]

theorem mem_tokens_append (h : p.SplitsOff names) {k : Token} :
    k ∈ (p.append q).tokens names ↔
      k ∈ p.tokens names ∨ ∃ l ∈ q.tokens names, l.shift p.raw.length = k := by
  simp only [mem_tokens, templates, templatesWhere_append h.lists, citeMarks_append h,
    mem_tagMarks_append h, List.mem_append, List.mem_map]
  constructor
  · rintro (⟨t, ht | ⟨s, hs, rfl⟩, rfl⟩ | ⟨t, ht | ⟨s, hs, rfl⟩, rfl⟩ |
      ⟨t, ht | ⟨s, hs, rfl⟩, rfl⟩)
    · exact .inl (.inl ⟨t, ht, rfl⟩)
    · exact .inr ⟨_, .inl ⟨s, hs, rfl⟩, rfl⟩
    · exact .inl (.inr (.inl ⟨t, ht, rfl⟩))
    · exact .inr ⟨_, .inr (.inl ⟨s, hs, rfl⟩), rfl⟩
    · exact .inl (.inr (.inr ⟨t, ht, rfl⟩))
    · exact .inr ⟨_, .inr (.inr ⟨s, hs, rfl⟩), (Token.ofTemplate_shift _ s).symm⟩
  · rintro ((⟨t, ht, rfl⟩ | ⟨t, ht, rfl⟩ | ⟨t, ht, rfl⟩) |
      ⟨_, ⟨s, hs, rfl⟩ | ⟨s, hs, rfl⟩ | ⟨s, hs, rfl⟩, rfl⟩)
    · exact .inl ⟨t, .inl ht, rfl⟩
    · exact .inr (.inl ⟨t, .inl ht, rfl⟩)
    · exact .inr (.inr ⟨t, .inl ht, rfl⟩)
    · exact .inl ⟨_, .inr ⟨s, hs, rfl⟩, rfl⟩
    · exact .inr (.inl ⟨_, .inr ⟨s, hs, rfl⟩, rfl⟩)
    · exact .inr (.inr ⟨_, .inr ⟨s, hs, rfl⟩, Token.ofTemplate_shift _ s⟩)

/-- Lists of marks in order that have the same marks are the same. -/
theorem eq_of_mem_iff {ks ls : List Token}
    (hk : ks.Pairwise fun k l => k.span.start < l.span.start)
    (hl : ls.Pairwise fun k l => k.span.start < l.span.start) (h : ∀ k, k ∈ ks ↔ k ∈ ls) :
    ks = ls := by
  have : Std.Irrefl fun k l : Token => k.span.start < l.span.start := ⟨fun _ => Nat.lt_irrefl _⟩
  have : Std.Antisymm fun k l : Token => k.span.start < l.span.start :=
    ⟨fun _ _ hkl hlk => absurd hkl (Nat.lt_asymm hlk)⟩
  exact hk.eq_of_mem_iff hl h

/-- **The marks of two pages one behind the other are the marks of the two.** -/
theorem tokens_append (h : p.SplitsOff names) :
    (p.append q).tokens names =
      p.tokens names ++ (q.tokens names).map (Token.shift p.raw.length) := by
  refine eq_of_mem_iff (pairwise_lt_tokens _ names) ?_ fun k => ?_
  · rw [List.pairwise_append, List.pairwise_map]
    refine ⟨pairwise_lt_tokens p names, (pairwise_lt_tokens q names).imp fun {k l} hkl => ?_,
      fun k hk l hl => ?_⟩
    · rw [Token.span_shift, Token.span_shift, Span.start_shift, Span.start_shift]
      omega
    · obtain ⟨l, -, rfl⟩ := List.mem_map.mp hl
      have := span_of_mem_tokens hk
      rw [Token.span_shift, Span.start_shift]
      omega
  · rw [mem_tokens_append h, List.mem_append, List.mem_map]

end Page

/-! ## 6. Texts -/

/-- The text is read by itself, whatever stands behind it: what it hides and what it shows. -/
structure SelfContained (names : List Text) (u : Text) : Prop where
  veil : ∀ rest : Text, (u ++ rest).veil = u.veil ++ rest.veil
  marks : (Page.ofText u).SplitsOff names

namespace SelfContained

variable {names : List Text} {u v w : Text}

theorem nil : SelfContained names [] := ⟨fun _ => rfl, .nil, .nil, .nil, .nil⟩

theorem append (hu : SelfContained names u) (hv : SelfContained names v) :
    SelfContained names (u ++ v) := by
  have hseen : (Page.ofText (u ++ v)).seen = u.veil ++ v.veil := hu.veil v
  refine ⟨fun rest => ?_, ?_, ?_, ?_, ?_⟩
  · rw [List.append_assoc, hu.veil, hv.veil, hu.veil, List.append_assoc]
  · rw [hseen]
    exact hu.marks.full.append hv.marks.full
  · rw [hseen]
    exact hu.marks.empty.append hv.marks.empty
  · rw [hseen]
    exact hu.marks.lists.append hv.marks.lists
  · rw [hseen]
    exact hu.marks.cites.append hv.marks.cites

/-- What stands between two places where the text can be cut is read by itself. -/
theorem cancel (hu : SelfContained names u) (huw : SelfContained names (u ++ w)) :
    SelfContained names w := by
  have hseen : (Page.ofText (u ++ w)).seen = u.veil ++ w.veil := hu.veil w
  obtain ⟨hveil, hmarks⟩ := huw
  refine ⟨fun rest => ?_, ?_, ?_, ?_, ?_⟩
  · have h := hveil rest
    rw [List.append_assoc, hu.veil, hu.veil, List.append_assoc] at h
    exact List.append_cancel_left h
  · exact hu.marks.full.cancel (hseen ▸ hmarks.full)
  · exact hu.marks.empty.cancel (hseen ▸ hmarks.empty)
  · exact hu.marks.lists.cancel (hseen ▸ hmarks.lists)
  · exact hu.marks.cites.cancel (hseen ▸ hmarks.cites)

theorem ofText_append (hu : SelfContained names u) (rest : Text) :
    Page.ofText (u ++ rest) = (Page.ofText u).append (Page.ofText rest) := by
  simp only [Page.ofText, Page.append, hu.veil]

/-- **The marks of a text are those of a part that is read by itself and those of the rest.** -/
theorem tokens_append (hu : SelfContained names u) (rest : Text) :
    (Page.ofText (u ++ rest)).tokens names = (Page.ofText u).tokens names ++
      ((Page.ofText rest).tokens names).map (Token.shift u.length) := by
  rw [hu.ofText_append, Page.tokens_append hu.marks]
  rfl

end SelfContained
/-! ## 7. Texts without a bracket -/

section Untagged

variable {names : List Text} {u : Text}

theorem keyword?_eq_none {c : Char} (hc : c ≠ '<') (word r : Text) :
    keyword? ('<' :: word) (c :: r) = none := by
  by_contra h
  obtain ⟨rest, hrest⟩ := Option.ne_none_iff_exists'.mp h
  exact hc (by simpa using head_of_keyword? hrest)

/-- A protected part begins with a bracket. -/
theorem length?_eq_none {c : Char} (hc : c ≠ '<') (r : Text) :
    Protected.length? (c :: r) = none := by
  have hcomment : Protected.comment? (c :: r) = none := by
    simp [Protected.comment?, after?, Ne.symm hc]
  have hempty : Protected.emptyTag? (c :: r) = none := by
    rw [Protected.emptyTag?]
    exact (congrArg (· >>= _) (keyword?_eq_none hc _ r)).trans rfl
  have helement : Protected.element? (c :: r) = none := by
    simp [Protected.element?, after?, Ne.symm hc]
  rw [Protected.length?, hcomment, hempty, helement]
  rfl

theorem refOpening?_eq_none {c : Char} (hc : c ≠ '<') (r : Text) :
    refOpening? (c :: r) = none :=
  (congrArg (· >>= _) (keyword?_eq_none hc _ r)).trans rfl

theorem emptyTagRule_pass {t : Text} (h : refOpening? t = none) : emptyTagRule t = .pass := by
  simp only [emptyTagRule, h]

theorem fullTagRule_pass {t : Text} (h : refOpening? t = none) : fullTagRule t = .pass := by
  simp only [fullTagRule, h]

/-- A text without a bracket hides nothing. -/
theorem veil_append_of_untagged (h : '<' ∉ u) (rest : Text) :
    (u ++ rest).veil = u ++ rest.veil := by
  induction u with
  | nil => rfl
  | cons c u ih =>
    obtain ⟨hc, hu⟩ := not_or.mp (List.mem_cons.not.mp h)
    rw [List.cons_append, Text.veil, veilFrom, length?_eq_none (Ne.symm hc)]
    exact congrArg (c :: ·) (ih hu)

theorem veil_of_untagged (h : '<' ∉ u) : u.veil = u := by
  simpa [Text.veil, veilFrom] using veil_append_of_untagged h []

theorem Splits.of_untagged {α : Type} (rule : Text → Verdict α) (h : '<' ∉ u)
    (hrule : ∀ t, refOpening? t = none → rule t = .pass) :
    Splits rule u ∧ scan (fun _ => rule) u = [] := by
  refine Splits.of_pass fun front back heq hback rest => hrule _ ?_
  cases back with
  | nil => exact absurd rfl hback
  | cons c back =>
    subst heq
    have hc : c ≠ '<' := fun hc => h (by simp [hc])
    exact refOpening?_eq_none hc _

/-- A text without a bracket is read by itself if its templates are, and it has no tags. -/
theorem SelfContained.of_untagged (h : '<' ∉ u)
    (hlists : Splits (invocationRule (isNameOf names)) u)
    (hcites : Splits (invocationRule (isNameOf [chainName, locatorName])) u) :
    SelfContained names u ∧ (Page.ofText u).refTags = [] := by
  have hseen : (Page.ofText u).seen = u := veil_of_untagged h
  obtain ⟨hfull, hfullScan⟩ := Splits.of_untagged fullTagRule h fun _ => fullTagRule_pass
  obtain ⟨hempty, hemptyScan⟩ := Splits.of_untagged emptyTagRule h fun _ => emptyTagRule_pass
  refine ⟨⟨fun rest => ?_, ?_, ?_, ?_, ?_⟩, ?_⟩
  · rw [veil_append_of_untagged h, veil_of_untagged h]
  · rwa [hseen]
  · rwa [hseen]
  · rwa [hseen]
  · rwa [hseen]
  · refine List.eq_nil_iff_forall_not_mem.mpr fun t ht => ?_
    rw [Page.mem_refTags, Page.fullTags_eq, Page.emptyTags_eq, Page.emptyFindings, hseen, hfullScan,
      hemptyScan] at ht
    simp at ht

end Untagged
end CiteMarkup
