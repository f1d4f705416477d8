import CiteMarkup.Proofs.Tag.Places
import CiteMarkup.Proofs.Template.Places
import CiteMarkup.Token
/-!
# The marks of a page, by place

Tags, chains, locators and output lists are found by readings of their own.  Whatever the
readings find, no two marks begin at one place (`Page.pairwise_lt_tokens`): a mark that begins
inside a list or inside the body of a tag is left out, and a tag begins with another character
than a template.  So a mark is known by where it begins (`Page.eq_of_start_eq`).  Marks of one
reading do not overlap either (`Page.apart_of_reading_eq`); those of different readings may.
-/

namespace CiteMarkup

/-! ## 1. The readings -/

namespace Token

/-- A locator; nothing ever edits one. -/
def isLocator : Token → Bool
  | .locator _ => true
  | _ => false

@[simp] theorem span_tag (t : RefTag) : (tag t).span = t.span := rfl

@[simp] theorem span_chain (t : Template) : (chain t).span = t.span := rfl

@[simp] theorem span_locator (t : Template) : (locator t).span = t.span := rfl

@[simp] theorem span_list (t : Template) : (list t).span = t.span := rfl

theorem ofTemplate_cases (t : Template) : ofTemplate t = chain t ∨ ofTemplate t = locator t := by
  unfold ofTemplate
  split
  · exact .inl rfl
  · exact .inr rfl

@[simp] theorem span_ofTemplate (t : Template) : (ofTemplate t).span = t.span := by
  rcases ofTemplate_cases t with h | h <;> rw [h] <;> rfl

end Token

namespace Page

variable {p : Page} {names : List Text}

/-- An output list goes over the offset. -/
def inList (p : Page) (names : List Text) (i : Nat) : Bool :=
  (p.templates names).any (·.span.contains i)

/-- The tags that begin in no output list. -/
def tagMarks (p : Page) (names : List Text) : List RefTag :=
  p.refTags.filter fun t => !p.inList names t.span.start

/-- The chains and locators that begin in no output list and in no tag with content. -/
def citeMarks (p : Page) (names : List Text) : List Template :=
  (p.templates [chainName, locatorName]).filter fun t =>
    !p.inList names t.span.start &&
      !(p.tagMarks names).any fun f => f.isFull && f.span.contains t.span.start

theorem tokens_eq (p : Page) (names : List Text) :
    p.tokens names = sortByStart Token.start ((p.templates names).map .list ++
      (p.tagMarks names).map .tag ++ (p.citeMarks names).map Token.ofTemplate) := rfl

/-- The marks that can be edited: tags, chains and output lists. -/
def marks (p : Page) (names : List Text) : List Token :=
  (p.tokens names).filter fun k => !k.isLocator

theorem mem_tokens {k : Token} : k ∈ p.tokens names ↔
    (∃ t ∈ p.templates names, .list t = k) ∨ (∃ t ∈ p.tagMarks names, .tag t = k) ∨
      ∃ t ∈ p.citeMarks names, Token.ofTemplate t = k := by
  rw [tokens_eq, mem_sortByStart, List.mem_append, List.mem_append, List.mem_map, List.mem_map,
    List.mem_map, or_assoc]

theorem mem_tokens_list {t : Template} : .list t ∈ p.tokens names ↔ t ∈ p.templates names := by
  rw [mem_tokens]
  constructor
  · rintro (⟨s, hs, h⟩ | ⟨s, -, h⟩ | ⟨s, -, h⟩)
    · cases h
      exact hs
    · cases h
    · rcases Token.ofTemplate_cases s with he | he <;> rw [he] at h <;> cases h
  · exact fun h => .inl ⟨t, h, rfl⟩

theorem mem_tokens_tag {t : RefTag} : .tag t ∈ p.tokens names ↔ t ∈ p.tagMarks names := by
  rw [mem_tokens]
  constructor
  · rintro (⟨s, -, h⟩ | ⟨s, hs, h⟩ | ⟨s, -, h⟩)
    · cases h
    · cases h
      exact hs
    · rcases Token.ofTemplate_cases s with he | he <;> rw [he] at h <;> cases h
  · exact fun h => .inr (.inl ⟨t, h, rfl⟩)

theorem mem_citeMarks_of_chain {t : Template} (h : .chain t ∈ p.tokens names) :
    t ∈ p.citeMarks names := by
  rcases mem_tokens.mp h with ⟨s, -, h⟩ | ⟨s, -, h⟩ | ⟨s, hs, h⟩
  · cases h
  · cases h
  · rcases Token.ofTemplate_cases s with he | he <;> rw [he] at h <;> cases h
    exact hs

/-! ## 2. Where marks stand -/

theorem isInvocation_of_mem_templates {t : Template} (h : t ∈ p.templates names) :
    p.IsInvocation t :=
  isInvocation_of_mem h

theorem isInvocation_of_mem_citeMarks {t : Template} (h : t ∈ p.citeMarks names) :
    p.IsInvocation t :=
  isInvocation_of_mem (List.mem_filter.mp h).1

theorem span_of_mem_tagMarks {t : RefTag} (h : t ∈ p.tagMarks names) :
    t.span.start < t.span.stop ∧ t.span.stop ≤ p.raw.length ∧
      p.seen[t.span.start]? = some '<' := by
  have hspan := span_of_mem_refTagsBetween (List.mem_filter.mp h).1
  exact ⟨hspan.2.1, Nat.le_trans hspan.2.2.1 (Nat.min_le_right _ _), hspan.2.2.2⟩

/-- A mark has characters, and they are characters of the page. -/
theorem span_of_mem_tokens {k : Token} (h : k ∈ p.tokens names) :
    k.span.start < k.span.stop ∧ k.span.stop ≤ p.raw.length := by
  rcases mem_tokens.mp h with ⟨t, ht, rfl⟩ | ⟨t, ht, rfl⟩ | ⟨t, ht, rfl⟩
  · have hi := isInvocation_of_mem_templates ht
    exact ⟨hi.start_lt, hi.stop_le⟩
  · have hspan := span_of_mem_tagMarks ht
    exact ⟨hspan.1, hspan.2.1⟩
  · have hi := isInvocation_of_mem_citeMarks ht
    rw [Token.span_ofTemplate]
    exact ⟨hi.start_lt, hi.stop_le⟩

/-- A tag begins with another character than a template. -/
theorem start_ne_of_tag {t : RefTag} {s : Template} (ht : t ∈ p.tagMarks names)
    (hs : p.IsInvocation s) : t.span.start ≠ s.span.start := by
  intro h
  have h1 := (span_of_mem_tagMarks ht).2.2
  have h2 := hs.brace
  rw [h, h2] at h1
  exact absurd h1 (by decide)

theorem not_inList_of_mem {t : Template} {i : Nat} (h : t ∈ p.templates names)
    (hi : p.inList names i = false) : ¬ (t.span.start ≤ i ∧ i < t.span.stop) := by
  intro hc
  have hany : p.inList names i = true :=
    List.any_eq_true.mpr ⟨t, h, Span.contains_iff.mpr hc⟩
  rw [hi] at hany
  cases hany

/-- **No two marks begin at one place.** -/
theorem pairwise_lt_tokens (p : Page) (names : List Text) :
    (p.tokens names).Pairwise fun k l => k.span.start < l.span.start := by
  rw [tokens_eq]
  refine pairwise_lt_sortByStart ?_
  rw [List.pairwise_append, List.pairwise_append]
  refine ⟨⟨?lists, ?tags, ?listTag⟩, ?cites, ?cite⟩
  case lists =>
    rw [List.pairwise_map]
    refine (pairwise_templatesWhere p _).imp_of_mem fun {s t} hs _ hst => ?_
    have := (isInvocation_of_mem hs).start_lt
    simp only [Token.span_list]
    omega
  case tags =>
    rw [List.pairwise_map]
    refine ((pairwise_lt_refTagsBetween p 0 p.raw.length).filter _).imp fun {s t} hst => ?_
    simp only [Token.span_tag]
    omega
  case cites =>
    rw [List.pairwise_map]
    refine ((pairwise_templatesWhere p _).filter _).imp_of_mem fun {s t} hs _ hst => ?_
    have := (isInvocation_of_mem (List.mem_filter.mp hs).1).start_lt
    simp only [Token.span_ofTemplate]
    omega
  case listTag =>
    intro k hk l hl
    obtain ⟨s, hs, rfl⟩ := List.mem_map.mp hk
    obtain ⟨t, ht, rfl⟩ := List.mem_map.mp hl
    exact (start_ne_of_tag ht (isInvocation_of_mem_templates hs)).symm
  case cite =>
    intro k hk l hl
    obtain ⟨t, ht, rfl⟩ := List.mem_map.mp hl
    have hi := isInvocation_of_mem_citeMarks ht
    simp only [Token.span_ofTemplate]
    rcases List.mem_append.mp hk with hk | hk
    · -- a citation that begins with a list would begin inside it
      obtain ⟨s, hs, rfl⟩ := List.mem_map.mp hk
      have hout := (List.mem_filter.mp ht).2
      rw [Bool.and_eq_true, Bool.not_eq_true'] at hout
      have := not_inList_of_mem hs hout.1
      have := (isInvocation_of_mem_templates hs).start_lt
      rw [Token.span_list]
      omega
    · obtain ⟨s, hs, rfl⟩ := List.mem_map.mp hk
      exact start_ne_of_tag hs hi

/-- **A mark is known by where it begins.** -/
theorem eq_of_start_eq {k l : Token} (hk : k ∈ p.tokens names) (hl : l ∈ p.tokens names)
    (h : k.span.start = l.span.start) : k = l := by
  have hkl := List.Pairwise.forall_of_forall_of_flip
    (R := fun k l : Token => k = l ∨ k.span.start ≠ l.span.start) (fun _ _ => .inl rfl)
    ((pairwise_lt_tokens p names).imp fun hab => .inr (by omega))
    ((pairwise_lt_tokens p names).imp fun hab => .inr (by omega)) hk hl
  exact hkl.resolve_right fun hne => hne h

theorem mem_marks {k : Token} : k ∈ p.marks names ↔ k ∈ p.tokens names ∧ k.isLocator = false := by
  simp [marks]

/-! ## 3. Marks of one reading -/

/-- The reading that a mark comes from. -/
inductive Reading where
  | fullTag
  | emptyTag
  | list
  | cite
  deriving DecidableEq

end Page

/-- The reading that has found the mark. -/
def Token.reading : Token → Page.Reading
  | .tag t => if t.isFull then .fullTag else .emptyTag
  | .list _ => .list
  | .chain _ | .locator _ => .cite

namespace Page

variable {p : Page} {names : List Text}

/-- Two tags of the same kind stand one behind the other. -/
theorem apart_of_tagMarks {s t : RefTag} (hs : s ∈ p.tagMarks names) (ht : t ∈ p.tagMarks names)
    (h : s.isFull = t.isFull) : s = t ∨ s.span.Apart t.span := by
  have hs := (List.mem_filter.mp hs).1
  have ht := (List.mem_filter.mp ht).1
  cases hf : t.isFull with
  | true => exact apart_of_isFull hs ht (h.trans hf) hf
  | false =>
    have empty : ∀ {u : RefTag}, u ∈ p.refTags → u.isFull = false →
        u ∈ p.emptyTagsBetween 0 p.raw.length := fun hu hfu =>
      (mem_refTagsBetween.mp hu).resolve_left fun hfull => by
        rw [isFull_of_mem_fullTagsBetween hfull] at hfu
        cases hfu
    exact Span.apart_of_pairwise (pairwise_emptyTagsBetween p 0 p.raw.length)
      (empty hs (h.trans hf)) (empty ht hf)

/-- **Marks of one reading do not overlap.** -/
theorem apart_of_reading_eq {k l : Token} (hk : k ∈ p.tokens names) (hl : l ∈ p.tokens names)
    (h : k.reading = l.reading) : k = l ∨ k.span.Apart l.span := by
  have cite : ∀ t : Template, (Token.ofTemplate t).reading = .cite := fun t => by
    rcases Token.ofTemplate_cases t with ht | ht <;> rw [ht] <;> rfl
  have tag : ∀ t : RefTag, (Token.tag t).reading ≠ .list ∧ (Token.tag t).reading ≠ .cite := by
    intro t
    cases hf : t.isFull <;> simp [Token.reading, hf]
  rcases mem_tokens.mp hk with ⟨s, hs, rfl⟩ | ⟨s, hs, rfl⟩ | ⟨s, hs, rfl⟩ <;>
    rcases mem_tokens.mp hl with ⟨t, ht, rfl⟩ | ⟨t, ht, rfl⟩ | ⟨t, ht, rfl⟩
  · exact (Span.apart_of_pairwise (pairwise_templatesWhere p _) hs ht).imp_left fun h => by rw [h]
  · exact absurd h.symm (tag t).1
  · rw [cite] at h
    cases h
  · exact absurd h (tag s).1
  · have hfull : s.isFull = t.isFull := by
      cases hsf : s.isFull <;> cases htf : t.isFull <;> simp_all [Token.reading]
    exact (apart_of_tagMarks hs ht hfull).imp_left fun h => by rw [h]
  · rw [cite] at h
    exact absurd h (tag s).2
  · rw [cite] at h
    cases h
  · rw [cite] at h
    exact absurd h.symm (tag t).2
  · rw [Token.span_ofTemplate, Token.span_ofTemplate]
    exact (Span.apart_of_pairwise (pairwise_templatesWhere p _) (List.mem_filter.mp hs).1
      (List.mem_filter.mp ht).1).imp_left fun h => by rw [h]

end Page
end CiteMarkup
