import CiteMarkup.Proofs.Transform.Places
/-!
# What a plan leaves at a mark

A plan leaves a text at a stretch of a mark if its settled edits put the text there, or it
stands there and stays, and no other edit reaches into the stretch unless a mark of another
reading does (`Page.Leaves`).  For each kind of mark it is enough to know the edits that the
kind itself gets: for tags `leaves_tag`, for output lists `leaves_list`, for the definitions in
them `leaves_definition`, and for chains `leaves_chain`.
-/

namespace CiteMarkup

/-- The edits leave the text `w` at the stretch `s` of the mark `k`: it is written there, and
no other edit reaches into the stretch, but for edits of a mark of another reading that has
characters in common with it. -/
structure Page.Leaves (p : Page) (names : List Text) (edits : List Edit) (k : Token) (s : Span)
    (w : Text) : Prop where
  written : ⟨s, w⟩ ∈ Edit.settle edits ∨ p.raw.cut s = w
  only : ∀ e ∈ Edit.settle edits, e.span.Meets s → e = ⟨s, w⟩ ∨
    ∃ l ∈ p.marks names, l.reading ≠ k.reading ∧ l.span.Meets s ∧ e.span.Within l.span

/-- The edits leave `w` where the tag of an occurrence stands. -/
def Page.LeavesTag (p : Page) (names : List Text) (edits : List Edit) (occ : Occurrence)
    (w : Text) : Prop :=
  ∃ tag, .tag tag ∈ p.tokens names ∧ occ = tag.occurrence ∧
    p.Leaves names edits (.tag tag) occ.span w

namespace Model

variable {m : Model} {p : Page} {names : List Text} {o : Options} {mode : Mode} {e f : Edit}
variable {t : Template} {tag : RefTag} {w : Text} {k : Token} {s : Span}

/-! ## 1. Any mark -/

/-- A text that one edit puts at a stretch, and no other edit apart from those of chains has
anything to say about, is settled. -/
theorem mem_settle_plan (he : e ∈ m.markEdits o mode)
    (hall : ∀ f ∈ m.markEdits o mode, f.span = e.span → f = e) :
    e ∈ Edit.settle (m.plan o mode).1.edits := by
  rw [plan_edits]
  exact Edit.mem_settle_append he hall

section Leaves

variable (h : m.Accounts p names)
include h

/-- It is enough to look at the edits of the mark itself. -/
theorem Accounts.leaves (hk : k ∈ p.marks names) (hs : s.Within k.span)
    (hwritten : ⟨s, w⟩ ∈ Edit.settle (m.plan o mode).1.edits ∨ p.raw.cut s = w)
    (honly : ∀ e ∈ (m.plan o mode).1.edits, m.Seats o mode e k → e.span.Meets s → e = ⟨s, w⟩) :
    p.Leaves names (m.plan o mode).1.edits k s w where
  written := hwritten
  only := by
    intro e he hmeet
    have hedit := Edit.mem_of_mem_settle he
    have hkt := (Page.mem_marks.mp hk).1
    rcases h.exists_seat hedit with hend | ⟨l, hl, hseat⟩
    · -- an insertion at the end of the page reaches into nothing
      have hstop := (Page.span_of_mem_tokens hkt).2
      have hle := hs.2
      rw [hend] at hmeet
      have hlt : p.raw.length < s.stop := hmeet.1
      omega
    · have hlt := (Page.mem_marks.mp hl).1
      have hw := hseat.within h hlt
      by_cases hread : l.reading = k.reading
      · rcases Page.apart_of_reading_eq hlt hkt hread with rfl | hapart
        · exact .inl (honly e hedit hseat hmeet)
        · exact absurd hmeet
            (Span.not_meets_of_apart (((hapart.mono hw).symm.mono hs).symm))
      · exact .inr ⟨l, hl, hread, hmeet.mono hw, hw⟩

/-! ## 2. Tags -/

/-- A definition begins inside its list, where no tag of the running text begins. -/
theorem Accounts.start_ne_of_listed (htag : .tag tag ∈ p.tokens names) {r : Record}
    {occ : Occurrence} (hr : r ∈ m.records) (ho : occ ∈ r.listed) :
    occ.span.start ≠ tag.span.start := by
  obtain ⟨t, ht, hocc⟩ := h.exists_list hr ho
  have hlist := Page.mem_tokens_list.mp ht
  have hb := (Page.isInvocation_of_mem_templates hlist).span_of_mem_listedIn hocc
  have hout := (List.mem_filter.mp (Page.mem_tokens_tag.mp htag)).2
  have hno := Page.not_inList_of_mem hlist (by simpa using hout)
  omega

/-- **What a plan leaves at a tag.**  All edits to uses for the stretch of the tag put one
text there, and it stands there already or one of them does put it there. -/
theorem Accounts.leaves_tag (htag : .tag tag ∈ p.tokens names)
    (hall : ∀ r ∈ m.records, ∀ e ∈ m.useEdits o mode r, e.span = tag.span → e.text = w)
    (hplanned : p.raw.cut tag.span = w ∨
      ∃ r ∈ m.records, ⟨tag.span, w⟩ ∈ m.useEdits o mode r) :
    p.Leaves names (m.plan o mode).1.edits (.tag tag) tag.span w := by
  refine h.leaves (Page.mem_marks.mpr ⟨htag, rfl⟩) (Span.Within.refl _) ?_ ?_
  · refine hplanned.symm.imp_left fun ⟨r, hr, he⟩ => ?_
    refine mem_settle_plan (mem_markEdits.mpr (.inl ⟨r, hr, he⟩)) fun f hf hspan => ?_
    have hspan' : f.span = tag.span := hspan
    rcases mem_markEdits.mp hf with ⟨s, hs, hf⟩ | ⟨-, s, hs, occ, ho, hf⟩ | ⟨-, hf | ⟨-, hf⟩⟩
    · exact Edit.eq_mk hspan' (hall s hs f hf hspan')
    · refine absurd ?_ (h.start_ne_of_listed htag hs ho)
      rw [← (span_of_mem_definitionEdits hf).1, hspan']
    · obtain ⟨t, ht, hft⟩ := mem_listEdits hf
      refine absurd ?_ (Page.start_ne_of_tag (Page.mem_tokens_tag.mp htag)
        (Page.isInvocation_of_mem_templates (Page.mem_tokens_list.mp (h.mem_lists.mp ht))))
      rw [← hft, hspan']
    · have hpos := (Page.span_of_mem_tagMarks (Page.mem_tokens_tag.mp htag)).1
      rw [hf] at hspan'
      rw [← hspan'] at hpos
      exact absurd hpos (Nat.lt_irrefl _)
  · intro e _ hseat _
    obtain ⟨hspan, r, hr, he⟩ := hseat
    exact Edit.eq_mk hspan (hall r hr e he hspan)

/-! ## 3. Output lists and their definitions -/

/-- **What a plan leaves at an output list if bodies move.** -/
theorem Accounts.leaves_list (hmode : mode ≠ .keep) (ht : .list t ∈ p.tokens names)
    (hall : ∀ e ∈ m.outputEdits o, e.span = t.span → e.text = w)
    (hplanned : p.raw.cut t.span = w ∨ ⟨t.span, w⟩ ∈ m.outputEdits o) :
    p.Leaves names (m.plan o mode).1.edits (.list t) t.span w := by
  have hi := Page.isInvocation_of_mem_templates (Page.mem_tokens_list.mp ht)
  refine h.leaves (Page.mem_marks.mpr ⟨ht, rfl⟩) (Span.Within.refl _) ?_ ?_
  · refine hplanned.symm.imp_left fun he => ?_
    refine mem_settle_plan (mem_markEdits.mpr (.inr (.inr ⟨hmode, .inl he⟩))) fun f hf hspan => ?_
    have hspan' : f.span = t.span := hspan
    rcases mem_markEdits.mp hf with ⟨r, hr, hf⟩ | ⟨hm, -⟩ | ⟨-, hf | ⟨-, hf⟩⟩
    · obtain ⟨s, hs, occ, ho, hc, hft⟩ := exists_use hr hf
      obtain ⟨tag, htag, rfl⟩ := h.exists_tag hs ho hc
      refine absurd ?_ (Page.start_ne_of_tag (Page.mem_tokens_tag.mp htag) hi)
      rw [← hspan', hft]
      rfl
    · exact absurd hm hmode
    · exact Edit.eq_mk hspan' (hall f hf hspan')
    · have hpos := hi.start_lt
      rw [hf] at hspan'
      rw [← hspan'] at hpos
      exact absurd hpos (Nat.lt_irrefl _)
  · intro e _ hseat _
    rcases hseat with ⟨-, hspan, he⟩ | ⟨hm, -⟩
    · exact Edit.eq_mk hspan (hall e he hspan)
    · exact absurd hm hmode

/-- **What a plan leaves at a definition that is kept**: its one edit, or what is written. -/
theorem Accounts.leaves_definition (hv : p.IsVeiled) {r : Record} {occ : Occurrence}
    (hr : r ∈ m.records) (ho : occ ∈ r.listed) (ht : .list t ∈ p.tokens names)
    (hocc : occ ∈ p.listedIn t)
    (hedits : m.definitionEdits o r occ = p.change occ.span w) :
    p.Leaves names (m.plan o .keep).1.edits (.list t) occ.span w := by
  have hi := Page.isInvocation_of_mem_templates (Page.mem_tokens_list.mp ht)
  have hb := hi.span_of_mem_listedIn hocc
  have mine : ∀ {f : Edit}, f ∈ m.definitionEdits o r occ → f = ⟨occ.span, w⟩ := by
    intro f hf
    rw [hedits] at hf
    exact (Page.mem_change.mp hf).2
  have bracket : ∀ {q : Occurrence}, q ∈ p.listedIn t → m.page.raw[q.span.start]? = some '<' :=
    fun hq => by
      rw [h.page_eq]
      obtain ⟨_, -, -, -, -, hseen⟩ := Page.span_of_mem_listedIn hq
      exact hv hseen (by decide)
  refine h.leaves (Page.mem_marks.mpr ⟨ht, rfl⟩) ⟨by rw [Token.span_list]; omega, by
    rw [Token.span_list]; omega⟩ ?_ ?_
  · by_cases hcut : p.raw.cut occ.span = w
    · exact .inr hcut
    · have he : ⟨occ.span, w⟩ ∈ m.definitionEdits o r occ := by
        rw [hedits]
        exact Page.mem_change.mpr ⟨hcut, rfl⟩
      left
      refine mem_settle_plan (mem_markEdits.mpr (.inr (.inl ⟨rfl, r, hr, occ, ho, he⟩)))
        fun f hf hspan => ?_
      have hspan' : f.span = occ.span := hspan
      rcases mem_markEdits.mp hf with ⟨s, hs, hf⟩ | ⟨-, s, hs, occ', ho', hf⟩ | ⟨hm, -⟩
      · obtain ⟨s', hs', use, hu, hc, hft⟩ := exists_use hs hf
        obtain ⟨tag, htag, rfl⟩ := h.exists_tag hs' hu hc
        refine absurd ?_ (h.start_ne_of_listed htag hr ho)
        rw [← hspan', hft]
        rfl
      · -- the seat of a definition is where it begins
        obtain ⟨t', -, hocc'⟩ := h.exists_list hs ho'
        have hstart : occ'.span.start = occ.span.start := by
          rw [← (span_of_mem_definitionEdits hf).1, hspan']
        have hseat : occ'.seat = occ.seat := by
          rw [Page.seat_of_mem_listedIn hocc, Page.seat_of_mem_listedIn hocc', hstart]
        obtain ⟨rfl, rfl⟩ := h.unique_listed hs hr ho' ho hseat
        exact mine hf
      · exact absurd rfl hm
  · intro e _ hseat hmeet
    rcases hseat with ⟨hm, -⟩ | ⟨-, s, hs, occ', ho', hocc', he⟩
    · exact absurd rfl hm
    · rw [h.page_eq] at hocc'
      obtain ⟨hstart, hstop⟩ := span_of_mem_definitionEdits he
      rcases Span.apart_of_pairwise (Page.pairwise_listedIn p t) hocc' hocc with
        rfl | hle | hle
      · obtain ⟨rfl, -⟩ := h.unique_listed hs hr ho' ho rfl
        exact mine he
      · -- the line of an earlier definition ends before this one begins
        have hlt : occ.span.start < e.span.stop := hmeet.2
        rcases hstop with hstop | ⟨hstop, hnewline⟩
        · omega
        · have heq : occ'.span.stop = occ.span.start := by omega
          rw [heq, bracket hocc] at hnewline
          exact absurd hnewline (by decide)
      · have hlt : e.span.start < occ.span.stop := hmeet.1
        omega

/-! ## 4. Chains -/

/-- **What a plan leaves at a chain that is edited as a whole.** -/
theorem Accounts.leaves_chain {c : Chain} (hc : c ∈ m.chains)
    (hedits : (m.chainEdits o c).1 = p.change c.template.span w) :
    p.Leaves names (m.plan o mode).1.edits (.chain c.template) c.template.span w := by
  have hk : .chain c.template ∈ p.marks names :=
    Page.mem_marks.mpr ⟨(h.mem_chains hc).1, rfl⟩
  have hi := h.isInvocation_of_chain hc
  have mine : ∀ {f : Edit}, m.Seats o mode f (.chain c.template) → f = ⟨c.template.span, w⟩ := by
    rintro f ⟨d, hd, htemplate, hf⟩
    obtain rfl := h.chain_eq hd hc (.inr htemplate)
    rw [hedits] at hf
    exact (Page.mem_change.mp hf).2
  refine h.leaves hk (Span.Within.refl _) ?_ fun e _ hseat _ => mine hseat
  by_cases hcut : p.raw.cut c.template.span = w
  · exact .inr hcut
  · left
    have he : ⟨c.template.span, w⟩ ∈ (m.plan o mode).1.edits := by
      rw [plan_edits]
      refine List.mem_append_left _ (List.mem_flatMap.mpr ⟨c, hc, ?_⟩)
      rw [hedits]
      exact Page.mem_change.mpr ⟨hcut, rfl⟩
    refine Edit.mem_settle he fun f hf hspan => ?_
    have hspan' : f.span = c.template.span := hspan
    rcases h.exists_seat hf with hend | ⟨l, hl, hseat⟩
    · have hpos := hi.start_lt
      rw [← hspan', hend] at hpos
      exact absurd hpos (Nat.lt_irrefl _)
    · have hlt := (Page.mem_marks.mp hl).1
      have hw := hseat.within h hlt
      -- what begins where the chain does begins with a brace, so it is no tag and no definition
      cases l with
      | tag t =>
        refine absurd ?_ (Page.start_ne_of_tag (Page.mem_tokens_tag.mp hlt) hi)
        rw [← hspan', hseat.1]
      | chain t =>
        rcases Page.apart_of_reading_eq (h.mem_chains hc).1 hlt rfl with heq | hapart
        · rw [← heq] at hseat
          exact mine hseat
        · rw [hspan'] at hw
          have hpos := hi.start_lt
          exact absurd ⟨hpos, hpos⟩
            (Span.not_meets_of_apart ((hapart.symm.mono hw)))
      | list t =>
        rcases hseat with ⟨-, hft, -⟩ | ⟨-, r, hr, occ, ho, hocc, hf⟩
        · have heq := Page.eq_of_start_eq (h.mem_chains hc).1 hlt (by
            rw [Token.span_chain, Token.span_list, ← hft, hspan'])
          cases heq
        · rw [h.page_eq] at hocc
          obtain ⟨_, -, -, -, -, hseen⟩ := Page.span_of_mem_listedIn hocc
          rw [← (span_of_mem_definitionEdits hf).1, hspan', hi.brace] at hseen
          exact absurd hseen (by decide)
      | locator t => exact hseat.elim

end Leaves
end Model
end CiteMarkup
