import CiteMarkup.Proofs.Edit.Apply
import CiteMarkup.Proofs.Transform.Places
/-!
# What a transform cannot touch

Each planned edit either adds something at the end of the page or stays inside one citation
mark that is no locator (`edits_within_marks`).  So a character outside all of these marks is
no part of any edit, and as long as no two marks of the page overlap, every stretch of the page
between the marks stands in the edited page as it stood before (`isInfix_edited`).
-/

namespace CiteMarkup

variable {p : Page} {names : List Text} {edits : List Edit} {t : Text}

/-- Each edit is an insertion at the end of the page or stays inside one mark that is no
locator. -/
def Page.Frames (p : Page) (names : List Text) (edits : List Edit) : Prop :=
  ∀ e ∈ edits, e.span = Span.empty p.raw.length ∨
    ∃ k ∈ p.tokens names, k.isLocator = false ∧ e.span.Within k.span

/-- The character at an offset stands outside all marks, except perhaps locators. -/
def Page.IsOutside (p : Page) (names : List Text) (i : Nat) : Prop :=
  ∀ k ∈ p.tokens names, k.isLocator = false → k.span.contains i = false

/-- The edits of a plan stay inside the marks that the plan is made for. -/
theorem Model.Accounts.frames {m : Model} (h : m.Accounts p names) (o : Options) (mode : Mode) :
    p.Frames names (m.plan o mode).1.edits := by
  intro e he
  refine (h.exists_seat he).imp_right ?_
  rintro ⟨k, hk, hseat⟩
  obtain ⟨htoken, hlocator⟩ := Page.mem_marks.mp hk
  exact ⟨k, htoken, hlocator, hseat.within h htoken⟩

/-- An edit that stays inside the marks takes in no character outside of them. -/
theorem Page.Frames.not_contains (h : p.Frames names edits) {e : Edit} (he : e ∈ edits) {i : Nat}
    (hi : p.IsOutside names i) : e.span.contains i = false := by
  rw [Bool.eq_false_iff]
  intro hin
  obtain ⟨hstart, hstop⟩ := Span.contains_iff.mp hin
  rcases h e he with hend | ⟨k, hk, hlocator, hwithin⟩
  · -- an empty stretch has no characters
    rw [hend] at hstart hstop
    exact absurd hstop (Nat.not_lt.mpr hstart)
  · have hmark : k.span.contains i = true := by
      have := hwithin.1
      have := hwithin.2
      rw [Span.contains_iff]
      omega
    rw [hi k hk hlocator] at hmark
    cases hmark

/-- The edits of a transform stay inside the marks of the page that it is given. -/
theorem frames_transform (o : Options) (title : Option Text) (t : Text) :
    (Page.ofText t).Frames o.listNames.toList (transform o title t).plan.edits := by
  rw [plan_eq]
  exact (accounts_placed o title t).frames o _

/-- **Edits stay inside citation marks.**  For every page and all options, each planned edit is
an insertion at the end of the page or lies within one tag, chain or output list of the page,
so no edit takes in a character outside of these. -/
theorem edits_within_marks (o : Options) (title : Option Text) (t : Text) :
    (Page.ofText t).Frames o.listNames.toList (transform o title t).plan.edits ∧
      ∀ i, (Page.ofText t).IsOutside o.listNames.toList i →
        ∀ e ∈ (transform o title t).plan.edits, e.span.contains i = false :=
  ⟨frames_transform o title t, fun _ hi _ he => (frames_transform o title t).not_contains he hi⟩

/-! ## Text between the marks -/

/-- Edits that lie between two offsets, and a stretch that none of them reaches into: the
stretch stands in what the edits lead to. -/
theorem Edit.isInfix_spliced {es : List Edit} {a b i j : Nat} (h : Edit.Between a b es)
    (hai : a ≤ i) (hij : i ≤ j) (hjb : j ≤ b)
    (hclear : ∀ e ∈ es, e.span.stop ≤ i ∨ j ≤ e.span.start) :
    t.slice i j <:+: Edit.spliced t b a es := by
  induction es generalizing a with
  | nil =>
    -- the stretch lies in the text that is left
    refine ⟨t.slice a i, t.slice j b, ?_⟩
    rw [Edit.spliced, Text.slice_append_slice t hai hij,
      Text.slice_append_slice t (Nat.le_trans hai hij) hjb]
  | cons e es ih =>
    rcases hclear e List.mem_cons_self with hstop | hstart
    · exact (ih h.2 hstop fun f hf => hclear f (List.mem_cons_of_mem _ hf)).trans
        ⟨t.slice a e.span.start ++ e.text, [], by rw [Edit.spliced, List.append_nil]⟩
    · refine ⟨t.slice a i, t.slice j e.span.start ++ e.text ++ Edit.spliced t b e.span.stop es, ?_⟩
      rw [Edit.spliced, ← Text.slice_append_slice t hai (Nat.le_trans hij hstart),
        ← Text.slice_append_slice t hij hstart]
      simp only [List.append_assoc]

/-- A stretch with no character of a mark lies in front of an edit or behind it. -/
theorem Page.Frames.clear (h : p.Frames names edits) {e : Edit} (he : e ∈ edits) {i j : Nat}
    (hij : i < j) (hj : j ≤ p.raw.length)
    (hout : ∀ n, i ≤ n → n < j → p.IsOutside names n) :
    e.span.stop ≤ i ∨ j ≤ e.span.start := by
  rcases h e he with hend | ⟨k, hk, hlocator, hstart, hstop⟩
  · rw [hend]
    exact .inr hj
  · have hchars := (Page.span_of_mem_tokens hk).1
    by_contra hreach
    rw [not_or, Nat.not_le, Nat.not_le] at hreach
    -- the mark has a character in the stretch: its first one, or the first of the stretch
    have hmark : k.span.contains (max i k.span.start) = true := by
      rw [Span.contains_iff]
      omega
    rw [hout (max i k.span.start) (by omega) (by omega) k hk hlocator] at hmark
    cases hmark

/-- **The text between the marks stays.**  Where the marks of a page are apart, a stretch with
no character of a mark stands in the edited page as it stood before. -/
theorem isInfix_edited (o : Options) (title : Option Text) (t : Text)
    (hapart : ∀ k ∈ (Page.ofText t).marks o.listNames.toList,
      ∀ l ∈ (Page.ofText t).marks o.listNames.toList, k ≠ l → k.span.Apart l.span) {i j : Nat}
    (hij : i < j) (hj : j ≤ t.length)
    (hout : ∀ n, i ≤ n → n < j → (Page.ofText t).IsOutside o.listNames.toList n) :
    t.slice i j <:+: (transform o title t).edited := by
  have hframes := frames_transform o title t
  have hpair : (Edit.settle (transform o title t).plan.edits).Pairwise fun a b =>
      a.span.stop ≤ b.span.start ∨ False := by
    refine Edit.pairwise_settle fun e he f hf => ?_
    rw [plan_eq] at he hf
    refine ((accounts_placed o title t).edits_apart (Page.isVeiled_ofText t) he hf).imp_right
      fun h => h.imp_right ?_
    rintro ⟨k, hk, l, hl, hread, hmeet, -⟩
    exact Span.not_meets_of_apart (hapart k hk l hl fun heq => hread (heq ▸ rfl)) hmeet
  have hwithin : ∀ e ∈ Edit.settle (transform o title t).plan.edits,
      0 ≤ e.span.start ∧ e.span.stop ≤ t.length := by
    intro e he
    refine ⟨Nat.zero_le _, ?_⟩
    rcases hframes e (Edit.mem_of_mem_settle he) with hend | ⟨k, hk, -, -, hstop⟩
    · rw [hend]
      exact Nat.le_refl _
    · exact Nat.le_trans hstop (Page.span_of_mem_tokens hk).2
  have hbetween := Edit.between_of_pairwise (Nat.zero_le _)
    (hpair.imp fun hab => hab.resolve_right id) hwithin
  have hedited : (transform o title t).edited =
      Edit.spliced t t.length 0 (Edit.settle (transform o title t).plan.edits) :=
    Edit.applyAll_eq_spliced hbetween
  rw [hedited]
  exact Edit.isInfix_spliced hbetween (Nat.zero_le _) (Nat.le_of_lt hij) hj fun e he =>
    hframes.clear (Edit.mem_of_mem_settle he) hij hj hout

end CiteMarkup
