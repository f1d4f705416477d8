import CiteMarkup.Proofs.Chain.Scattered
import CiteMarkup.Proofs.Transform.Leaves
/-!
# Marks that are written anew

A page can often be cut around its marks, and each edit of a plan writes one of them anew or adds
something at the end of the page (`WritesMarks`).  Then the edits stand one behind the other, and
what is left of a mark is what its edit writes, or the mark as it is (`leftAt_of_leaves`).  The
signs of the edited page are those of what is left (`signs_edited`), and citations that stand
apart still do (`scattered_edited`).
-/

namespace CiteMarkup

/-- The page can be cut around its marks, and each edit writes a mark anew or adds something at
the end, in a text that is read by itself. -/
structure WritesMarks (names : List Text) (t : Text) (edits : List Edit) : Prop where
  page : SelfContained names t
  cuts : ∀ k ∈ (Page.ofText t).tokens names,
    SelfContained names (t.take k.span.start) ∧ SelfContained names (t.take k.span.stop)
  place : ∀ e ∈ edits,
    e.span = Span.empty t.length ∨ ∃ k ∈ (Page.ofText t).tokens names, e.span = k.span
  text : ∀ e ∈ edits, SelfContained names e.text

/-- What edits leave of a stretch once they are settled. -/
def settledAt (t : Text) (edits : List Edit) (s : Span) : Text := leftAt t (Edit.settle edits) s

namespace WritesMarks

variable {names : List Text} {t w : Text} {edits : List Edit} {e : Edit} {k l : Token}
variable (h : WritesMarks names t edits)
include h

theorem eq_or_apart (hk : k ∈ (Page.ofText t).tokens names)
    (hl : l ∈ (Page.ofText t).tokens names) : k = l ∨ k.span.Apart l.span :=
  eq_or_apart_of_cuts hk hl (h.cuts k hk).1 (h.cuts l hl).1

/-- The text of a mark has the sign of the mark. -/
theorem signs_standing (hk : k ∈ (Page.ofText t).tokens names) :
    SelfContained names (t.cut k.span) ∧ signs names (t.cut k.span) = [(Page.ofText t).sign k] := by
  refine signs_cut hk (h.cuts k hk).1 (h.cuts k hk).2 fun l hl hstart hstop => ?_
  have hlt := (Page.span_of_mem_tokens hl).1
  rcases h.eq_or_apart hl hk with heq | hapart
  · exact heq
  · unfold Span.Apart at hapart
    omega

/-- The edits stand one behind the other. -/
theorem between : Edit.Between 0 t.length (Edit.settle edits) := by
  have hwithin : ∀ e ∈ edits, 0 ≤ e.span.start ∧ e.span.stop ≤ t.length := by
    intro e he
    rcases h.place e he with hend | ⟨k, hk, hspan⟩
    · rw [hend]
      exact ⟨Nat.zero_le _, Nat.le_refl _⟩
    · rw [hspan]
      exact ⟨Nat.zero_le _, (Page.span_of_mem_tokens hk).2⟩
  refine Edit.between_settle (Nat.zero_le _) (fun e he f hf => ?_) hwithin
  rcases h.place e he with hend | ⟨k, hk, hspan⟩
  · -- nothing reaches over the end of the page
    refine .inr (.inr ?_)
    rw [hend]
    exact (hwithin f hf).2
  · rcases h.place f hf with hend | ⟨l, hl, hspan'⟩
    · refine .inr (.inl ?_)
      rw [hend]
      exact (hwithin e he).2
    · rcases h.eq_or_apart hk hl with rfl | hapart
      · exact .inl (hspan.trans hspan'.symm)
      · exact .inr (hspan ▸ hspan' ▸ hapart)

/-! ## 1. What is left of a mark -/

/-- An edit that begins in a mark is for the stretch of the mark. -/
theorem span_of_contains (he : e ∈ edits) (hk : k ∈ (Page.ofText t).tokens names)
    (hin : k.span.contains e.span.start = true) : e.span = k.span := by
  obtain ⟨hstart, hstop⟩ := Span.contains_iff.mp hin
  rcases h.place e he with hend | ⟨l, hl, hspan⟩
  · have hle : k.span.stop ≤ t.length := (Page.span_of_mem_tokens hk).2
    rw [hend] at hstop
    have hstop : t.length < k.span.stop := hstop
    omega
  · have hlt := (Page.span_of_mem_tokens hl).1
    rcases h.eq_or_apart hk hl with rfl | hapart
    · exact hspan
    · rw [hspan] at hstart hstop
      unfold Span.Apart at hapart
      omega

/-- A mark without an edit is left as it is. -/
theorem leftAt_of_unedited (hk : k ∈ (Page.ofText t).tokens names)
    (hno : ∀ e ∈ Edit.settle edits, e.span ≠ k.span) :
    settledAt t edits k.span = t.cut k.span := by
  have hnone : (Edit.settle edits).filter (fun e => k.span.contains e.span.start) = [] :=
    List.filter_eq_nil_iff.mpr fun e he hin =>
      hno e he (h.span_of_contains (Edit.mem_of_mem_settle he) hk hin)
  rw [settledAt, leftAt, hnone]
  rfl

/-- A mark with an edit is left as the edit says. -/
theorem leftAt_of_edit (hk : k ∈ (Page.ofText t).tokens names) (he : e ∈ Edit.settle edits)
    (hspan : e.span = k.span) : settledAt t edits k.span = e.text := by
  have hlt := (Page.span_of_mem_tokens hk).1
  have hone : (Edit.settle edits).filter (fun e => k.span.contains e.span.start) = [e] := by
    refine eq_singleton_of_nodup ?_ (List.mem_filter.mpr ⟨he, ?_⟩) fun f hf => ?_
    · refine List.Nodup.filter _ ((Edit.pairwise_settle_before _).imp fun hab heq => ?_)
      exact hab.1 (congrArg Edit.span heq)
    · rw [hspan]
      exact Span.contains_iff.mpr ⟨Nat.le_refl _, hlt⟩
    · obtain ⟨hf, hin⟩ := List.mem_filter.mp hf
      have hspan' := h.span_of_contains (Edit.mem_of_mem_settle hf) hk hin
      exact Edit.eq_of_span_eq hf he (hspan'.trans hspan.symm)
  rw [settledAt, leftAt, hone, Edit.spliced, Edit.spliced, hspan, Text.slice_self,
    Text.slice_self, List.nil_append, List.append_nil]

/-- What the edits leave at a mark stands there on the new page. -/
theorem leftAt_of_leaves (hk : k ∈ (Page.ofText t).tokens names)
    (hleaves : (Page.ofText t).Leaves names edits k k.span w) :
    settledAt t edits k.span = w := by
  have hlt := (Page.span_of_mem_tokens hk).1
  by_cases hmem : ⟨k.span, w⟩ ∈ Edit.settle edits
  · exact h.leftAt_of_edit hk hmem rfl
  · have hleft : settledAt t edits k.span = t.cut k.span := by
      refine h.leftAt_of_unedited hk fun e he hspan => ?_
      have hmeets : e.span.Meets k.span := by
        rw [hspan]
        exact ⟨hlt, hlt⟩
      rcases hleaves.only e he hmeets with rfl | ⟨l, hl, hread, hmeets, -⟩
      · exact hmem he
      · rcases h.eq_or_apart (Page.mem_marks.mp hl).1 hk with rfl | hapart
        · exact hread rfl
        · exact Span.not_meets_of_apart hapart hmeets
    rw [hleft]
    exact hleaves.written.resolve_left hmem

theorem selfContained_leftAt (hk : k ∈ (Page.ofText t).tokens names) :
    SelfContained names (settledAt t edits k.span) := by
  by_cases hedit : ∃ e ∈ Edit.settle edits, e.span = k.span
  · obtain ⟨e, he, hspan⟩ := hedit
    rw [h.leftAt_of_edit hk he hspan]
    exact h.text e (Edit.mem_of_mem_settle he)
  · rw [h.leftAt_of_unedited hk fun e he hspan => hedit ⟨e, he, hspan⟩]
    exact selfContained_slice k.span.ordered (h.cuts k hk).1 (h.cuts k hk).2

/-! ## 2. The edited page -/

theorem staysWithin (he : e ∈ Edit.settle edits) :
    e.StaysWithin t ((Page.ofText t).tokens names) := by
  refine (h.place e (Edit.mem_of_mem_settle he)).imp_right ?_
  rintro ⟨k, hk, hspan⟩
  refine ⟨k, hk, ?_, by rw [hspan]⟩
  rw [hspan]
  exact Span.contains_iff.mpr ⟨Nat.le_refl _, (Page.span_of_mem_tokens hk).1⟩

theorem selfContained_added (hw : w ∈ addedAtEnd t (Edit.settle edits)) :
    SelfContained names w := by
  obtain ⟨e, he, rfl⟩ := List.mem_map.mp hw
  exact h.text e (Edit.mem_of_mem_settle (List.mem_filter.mp he).1)

/-- **The signs of the edited page** are those of what is left of each mark, and those of what is
added. -/
theorem signs_edited : signs names (Edit.applyAll t edits) =
    ((Page.ofText t).tokens names).flatMap (fun k => signs names (settledAt t edits k.span)) ++
      (addedAtEnd t (Edit.settle edits)).flatMap (signs names) := by
  rw [Edit.applyAll_eq_spliced h.between, signs_spliced h.page h.between h.cuts
    (fun e he => h.staysWithin he) (fun k hk => h.selfContained_leftAt hk)
    fun w hw => h.selfContained_added hw]
  rfl

/-- **Citations that stand apart still do**, if each mark is left as one mark, and lists are
added. -/
theorem scattered_edited
    (hleft : ∀ k ∈ (Page.ofText t).tokens names,
      ∃ σ, signs names (settledAt t edits k.span) = [σ] ∧
        (σ.mark.joins = true → k.joins = true))
    (hadded : ∀ σ ∈ (addedAtEnd t (Edit.settle edits)).flatMap (signs names),
      σ.mark.joins = false)
    (hscattered : (Page.ofText t).Scattered names) :
    (Page.ofText (Edit.applyAll t edits)).Scattered names := by
  rw [Edit.applyAll_eq_spliced h.between]
  refine scattered_spliced h.page h.between h.cuts (fun e he => h.staysWithin he)
    (fun k hk => ⟨h.selfContained_leftAt hk, ?_⟩) (fun l hl => ?_) hscattered
  · obtain ⟨σ, hsigns, hjoins⟩ := hleft k hk
    obtain ⟨l, hl, rfl⟩ := List.map_eq_singleton_iff.mp hsigns
    refine ⟨l, hl, fun hlj => hjoins ?_⟩
    rw [← hlj]
    exact Token.joins_home l
  · have hall := (signs_flatten fun w hw => h.selfContained_added hw).2
    rw [← hall] at hadded
    have hjoins := hadded _ (List.mem_map_of_mem hl)
    rwa [Page.sign, Token.joins_home] at hjoins

end WritesMarks
end CiteMarkup
