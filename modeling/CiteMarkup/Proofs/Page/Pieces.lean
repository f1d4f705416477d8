import CiteMarkup.Proofs.Page.Cuts
/-!
# An edited page, piece by piece

Edits that stay within the marks of a page leave what stands between the marks.  So the edited page
is what stands in front of the first mark, what is left of the mark, what stands between it and
the second one, and so on (`spliced_eq_pieces`).
-/

namespace CiteMarkup

variable {names : List Text} {t : Text} {a b m : Nat} {k : Token} {ks : List Token}
variable {es : List Edit}

/-! ## 1. Marks from an offset on -/

/-- The marks are those of the page that begin at an offset or behind it, and the page can be cut
around each of them. -/
structure AreMarksFrom (names : List Text) (t : Text) (a : Nat) (ks : List Token) : Prop where
  page : SelfContained names t
  here : SelfContained names (t.take a)
  inside : a ≤ t.length
  apart : ks.Pairwise fun k l => k.span.stop ≤ l.span.start
  mem : ∀ k, k ∈ ks ↔ k ∈ (Page.ofText t).tokens names ∧ a ≤ k.span.start
  cuts : ∀ k ∈ ks, SelfContained names (t.take k.span.start) ∧
    SelfContained names (t.take k.span.stop)

theorem areMarksFrom_tokens (hpage : SelfContained names t)
    (hcuts : ∀ k ∈ (Page.ofText t).tokens names, SelfContained names (t.take k.span.start) ∧
      SelfContained names (t.take k.span.stop)) :
    AreMarksFrom names t 0 ((Page.ofText t).tokens names) where
  page := hpage
  here := .nil
  inside := Nat.zero_le _
  apart := (Page.pairwise_lt_tokens _ names).imp_of_mem fun {k l} hk hl hkl =>
    stop_le_of_start_lt (hcuts l hl).1
      (Nat.le_trans l.span.ordered (Page.span_of_mem_tokens hl).2) hk hkl
  mem k := by simp only [Nat.zero_le, and_true]
  cuts := hcuts

/-- A stretch in which no mark begins has no marks. -/
theorem tokens_slice_eq_nil (hab : a ≤ b) (hb : b ≤ t.length)
    (hta : SelfContained names (t.take a)) (htb : SelfContained names (t.take b))
    (hno : ∀ k ∈ (Page.ofText t).tokens names, ¬ (a ≤ k.span.start ∧ k.span.start < b)) :
    (Page.ofText (t.slice a b)).tokens names = [] := by
  refine List.eq_nil_iff_forall_not_mem.mpr fun l hl => ?_
  obtain ⟨hk, hrange⟩ := (mem_tokens_slice hab hb hta htb).mp (List.mem_map_of_mem hl)
  exact hno _ hk hrange

namespace AreMarksFrom

/-- Behind the last mark stands a text without marks. -/
theorem gap_nil (h : AreMarksFrom names t a []) : SelfContained names (t.slice a t.length) ∧
    (Page.ofText (t.slice a t.length)).tokens names = [] := by
  have htake : SelfContained names (t.take t.length) := by
    rw [List.take_length]
    exact h.page
  exact ⟨selfContained_slice h.inside h.here htake,
    tokens_slice_eq_nil h.inside (Nat.le_refl _) h.here htake fun k hk hrange =>
      absurd ((h.mem k).mpr ⟨hk, hrange.1⟩) List.not_mem_nil⟩

variable (h : AreMarksFrom names t a (k :: ks))
include h

theorem head_mem : k ∈ (Page.ofText t).tokens names := ((h.mem k).mp List.mem_cons_self).1

theorem le_start : a ≤ k.span.start := ((h.mem k).mp List.mem_cons_self).2

theorem stop_le : k.span.stop ≤ t.length := (Page.span_of_mem_tokens h.head_mem).2

theorem behind : ∀ l ∈ ks, k.span.stop ≤ l.span.start := (List.pairwise_cons.mp h.apart).1

/-- In front of the first mark stands a text without marks. -/
theorem gap_cons : SelfContained names (t.slice a k.span.start) ∧
    (Page.ofText (t.slice a k.span.start)).tokens names = [] := by
  obtain ⟨hfront, -⟩ := h.cuts k List.mem_cons_self
  have hle := h.stop_le
  have := k.span.ordered
  refine ⟨selfContained_slice h.le_start h.here hfront,
    tokens_slice_eq_nil h.le_start (by omega) h.here hfront fun l hl hrange => ?_⟩
  rcases List.mem_cons.mp ((h.mem l).mpr ⟨hl, hrange.1⟩) with rfl | hmem
  · omega
  · have := h.behind l hmem
    omega

/-- The other marks are those behind the first one. -/
theorem tail : AreMarksFrom names t k.span.stop ks where
  page := h.page
  here := (h.cuts k List.mem_cons_self).2
  inside := h.stop_le
  apart := (List.pairwise_cons.mp h.apart).2
  mem l := by
    have hle := h.le_start
    have := (Page.span_of_mem_tokens h.head_mem).1
    constructor
    · intro hl
      exact ⟨((h.mem l).mp (List.mem_cons_of_mem _ hl)).1, h.behind l hl⟩
    · rintro ⟨hl, hstart⟩
      refine (List.mem_cons.mp ((h.mem l).mpr ⟨hl, by omega⟩)).resolve_left ?_
      rintro rfl
      omega
  cuts l hl := h.cuts l (List.mem_cons_of_mem _ hl)

end AreMarksFrom

/-! ## 2. Edits at marks -/

/-- What edits leave of a stretch. -/
def leftAt (t : Text) (es : List Edit) (s : Span) : Text :=
  Edit.spliced t s.stop s.start (es.filter fun e => s.contains e.span.start)

/-- What stands at the end of a page after edits. -/
def addedAtEnd (t : Text) (es : List Edit) : List Text :=
  (es.filter fun e => e.span = Span.empty t.length).map (·.text)

/-- The edit stays within one of the marks, or adds something at the end of the page. -/
def Edit.StaysWithin (t : Text) (ks : List Token) (e : Edit) : Prop :=
  e.span = Span.empty t.length ∨
    ∃ k ∈ ks, k.span.contains e.span.start = true ∧ e.span.stop ≤ k.span.stop

theorem filter_append_filter_not {α : Type} {rel : α → α → Prop} {keep : α → Bool} {l : List α}
    (h : l.Pairwise rel) (hkeep : ∀ x y, rel x y → keep x = false → keep y = false) :
    l.filter keep ++ l.filter (fun x => !keep x) = l := by
  induction l with
  | nil => rfl
  | cons x r ih =>
    obtain ⟨hx, hr⟩ := List.pairwise_cons.mp h
    cases hkx : keep x with
    | true =>
      rw [List.filter_cons_of_pos hkx, List.filter_cons_of_neg (by simp [hkx]), List.cons_append,
        ih hr]
    | false =>
      have hnone : r.filter keep = [] :=
        List.filter_eq_nil_iff.mpr fun y hy => by simp [hkeep x y (hx y hy) hkx]
      have hall : r.filter (fun x => !keep x) = r :=
        List.filter_eq_self.mpr fun y hy => by simp [hkeep x y (hx y hy) hkx]
      rw [List.filter_cons_of_neg (by simp [hkx]), List.filter_cons_of_pos (by simp [hkx]), hnone,
        hall, List.nil_append]

theorem Edit.Between.pairwise_start (hb : Edit.Between a b es) :
    es.Pairwise fun e f => e.span.start ≤ f.span.start := by
  induction es generalizing a with
  | nil => exact .nil
  | cons e es ih =>
    refine List.pairwise_cons.mpr ⟨fun f hf => ?_, ih hb.2⟩
    exact Nat.le_trans e.span.ordered (hb.2.start_le hf)

/-- The edits that begin at an offset or behind it. -/
def editsFrom (m : Nat) (es : List Edit) : List Edit :=
  es.filter fun e => !decide (e.span.start < m)

theorem Edit.Between.filter_start (hb : Edit.Between a b es) (ham : a ≤ m) (hmb : m ≤ b)
    (hstop : ∀ e ∈ es, e.span.start < m → e.span.stop ≤ m) :
    Edit.Between a m (es.filter fun e => e.span.start < m) ∧
      Edit.Between m b (editsFrom m es) := by
  unfold editsFrom
  induction es generalizing a with
  | nil => exact ⟨ham, hmb⟩
  | cons e es ih =>
    by_cases hlt : e.span.start < m
    · have hrest := ih hb.2 (hstop e List.mem_cons_self hlt)
        fun f hf => hstop f (List.mem_cons_of_mem _ hf)
      rw [List.filter_cons_of_pos (by simpa using hlt),
        List.filter_cons_of_neg (by simpa using hlt)]
      exact ⟨⟨hb.1, hrest.1⟩, hrest.2⟩
    · have hnone : es.filter (fun e => decide (e.span.start < m)) = [] :=
        List.filter_eq_nil_iff.mpr fun f hf => by
          have := hb.2.start_le hf
          have := e.span.ordered
          simp only [decide_eq_true_eq]
          omega
      have hall : es.filter (fun e => !decide (e.span.start < m)) = es :=
        List.filter_eq_self.mpr fun f hf => by
          have := hb.2.start_le hf
          have := e.span.ordered
          simp only [Bool.not_eq_true', decide_eq_false_iff_not]
          omega
      rw [List.filter_cons_of_neg (by simpa using hlt),
        List.filter_cons_of_pos (by simpa using hlt), hnone, hall]
      exact ⟨ham, Nat.le_of_not_lt hlt, hb.2⟩

/-- Edits that add something at the end of a page. -/
theorem spliced_at_end (hb : Edit.Between a t.length es)
    (hes : ∀ e ∈ es, e.span = Span.empty t.length) :
    Edit.spliced t t.length a es = t.slice a t.length ++ (es.map (·.text)).flatten := by
  induction es generalizing a with
  | nil => simp [Edit.spliced]
  | cons e es ih =>
    have hspan := hes e List.mem_cons_self
    rw [Edit.spliced, ih hb.2 fun f hf => hes f (List.mem_cons_of_mem _ hf), hspan]
    simp [Span.empty]

/-- An edit belongs to the first mark, or begins behind it. -/
theorem Edit.StaysWithin.first_or_behind {e : Edit} (h : e.StaysWithin t (k :: ks))
    (hle : k.span.stop ≤ t.length) (hbehind : ∀ l ∈ ks, k.span.stop ≤ l.span.start) :
    (k.span.contains e.span.start = true ∧ e.span.stop ≤ k.span.stop) ∨
      k.span.stop ≤ e.span.start ∧ e.StaysWithin t ks := by
  rcases h with hend | ⟨l, hl, hcontains, hstop⟩
  · refine .inr ⟨?_, .inl hend⟩
    rw [hend]
    exact hle
  · rcases List.mem_cons.mp hl with rfl | hl
    · exact .inl ⟨hcontains, hstop⟩
    · have := hbehind l hl
      have := (Span.contains_iff.mp hcontains).1
      exact .inr ⟨by omega, .inr ⟨l, hl, hcontains, hstop⟩⟩

/-- It begins in the first mark if it begins in front of the end of that mark. -/
theorem Edit.StaysWithin.contains_eq {e : Edit} (h : e.StaysWithin t (k :: ks))
    (hle : k.span.stop ≤ t.length) (hbehind : ∀ l ∈ ks, k.span.stop ≤ l.span.start) :
    k.span.contains e.span.start = decide (e.span.start < k.span.stop) := by
  rcases h.first_or_behind hle hbehind with ⟨hcontains, -⟩ | ⟨hge, -⟩
  · rw [hcontains]
    exact (decide_eq_true (Span.contains_iff.mp hcontains).2).symm
  · rw [decide_eq_false (by omega), Bool.eq_false_iff, Ne, Span.contains_iff]
    omega

/-- The edits behind the first mark belong to the other marks, or stand at the end. -/
theorem staysWithin_of_mem_editsFrom {e : Edit} (hwithin : ∀ e ∈ es, e.StaysWithin t (k :: ks))
    (hle : k.span.stop ≤ t.length) (hbehind : ∀ l ∈ ks, k.span.stop ≤ l.span.start)
    (he : e ∈ editsFrom k.span.stop es) : e.StaysWithin t ks := by
  obtain ⟨he, hnot⟩ := List.mem_filter.mp he
  rcases (hwithin e he).first_or_behind hle hbehind with ⟨hcontains, -⟩ | ⟨-, hstays⟩
  · rw [(hwithin e he).contains_eq hle hbehind] at hcontains
    rw [hcontains] at hnot
    cases hnot
  · exact hstays

theorem filter_editsFrom {keep : Edit → Bool}
    (hkeep : ∀ e ∈ es, keep e = true → m ≤ e.span.start) :
    (editsFrom m es).filter keep = es.filter keep := by
  rw [editsFrom, List.filter_filter]
  refine List.filter_congr fun e he => ?_
  cases hke : keep e with
  | false => rfl
  | true => simp [hkeep e he hke]

/-- What is left of a later mark is up to the later edits. -/
theorem leftAt_editsFrom {s : Span} (hs : m ≤ s.start) :
    leftAt t (editsFrom m es) s = leftAt t es s := by
  rw [leftAt, filter_editsFrom fun e _ hcontains => by
    have := (Span.contains_iff.mp hcontains).1
    omega]
  rfl

theorem addedAtEnd_editsFrom (hm : m ≤ t.length) :
    addedAtEnd t (editsFrom m es) = addedAtEnd t es := by
  rw [addedAtEnd, filter_editsFrom fun e _ hend => by
    rw [of_decide_eq_true hend]
    exact hm]
  rfl

/-- The edited page from `a` on is what stands in front of the first mark, what is left of the
mark, and the edited page behind it. -/
theorem spliced_at_mark (hb : Edit.Between a t.length es) (hak : a ≤ k.span.start)
    (hle : k.span.stop ≤ t.length) (hbehind : ∀ l ∈ ks, k.span.stop ≤ l.span.start)
    (hwithin : ∀ e ∈ es, e.StaysWithin t (k :: ks)) :
    Edit.Between k.span.stop t.length (editsFrom k.span.stop es) ∧
      Edit.spliced t t.length a es = t.slice a k.span.start ++ (leftAt t es k.span ++
        Edit.spliced t t.length k.span.stop (editsFrom k.span.stop es)) := by
  have hsame : ∀ e ∈ es, k.span.contains e.span.start = decide (e.span.start < k.span.stop) :=
    fun e he => (hwithin e he).contains_eq hle hbehind
  have hstop : ∀ e ∈ es, e.span.start < k.span.stop → e.span.stop ≤ k.span.stop := by
    intro e he hstart
    rcases (hwithin e he).first_or_behind hle hbehind with ⟨-, hstop⟩ | ⟨hge, -⟩
    · exact hstop
    · omega
  have hkspan := k.span.ordered
  obtain ⟨hmine, hrest⟩ := hb.filter_start (by omega) hle hstop
  have hparts : es.filter (fun e => decide (e.span.start < k.span.stop)) ++
      editsFrom k.span.stop es = es :=
    filter_append_filter_not hb.pairwise_start fun e f hef he => by
      simp only [decide_eq_false_iff_not] at *
      omega
  -- no edit of the mark begins in front of it
  have hinside : Edit.Between k.span.start k.span.stop
      (es.filter fun e => decide (e.span.start < k.span.stop)) := by
    cases hes : es.filter fun e => decide (e.span.start < k.span.stop) with
    | nil => exact k.span.ordered
    | cons e r =>
      rw [hes] at hmine
      have he : e ∈ es.filter fun e => decide (e.span.start < k.span.stop) :=
        hes ▸ List.mem_cons_self
      obtain ⟨he, hlt⟩ := List.mem_filter.mp he
      have hcontains := hsame e he
      rw [hlt] at hcontains
      exact ⟨(Span.contains_iff.mp hcontains).1, hmine.2⟩
  have hleft : leftAt t es k.span = Edit.spliced t k.span.stop k.span.start
      (es.filter fun e => decide (e.span.start < k.span.stop)) := by
    rw [leftAt, List.filter_congr hsame]
  refine ⟨hrest, ?_⟩
  calc Edit.spliced t t.length a es
      = Edit.spliced t k.span.stop a (es.filter fun e => decide (e.span.start < k.span.stop)) ++
          Edit.spliced t t.length k.span.stop (editsFrom k.span.stop es) := by
        rw [← Edit.spliced_append hmine hrest, hparts]
    _ = _ := by rw [← Edit.slice_append_spliced hinside hak, hleft, List.append_assoc]

/-! ## 3. Pieces -/

/-- The page from an offset on, with `left` in the place of each mark and `added` behind the end. -/
def pieces (t : Text) (left : Span → Text) (added : Text) : Nat → List Token → Text
  | a, [] => t.slice a t.length ++ added
  | a, k :: ks => t.slice a k.span.start ++ (left k.span ++ pieces t left added k.span.stop ks)

theorem pieces_congr {left left' : Span → Text} (added : Text)
    (h : ∀ k ∈ ks, left k.span = left' k.span) (a : Nat) :
    pieces t left added a ks = pieces t left' added a ks := by
  induction ks generalizing a with
  | nil => rfl
  | cons k ks ih =>
    rw [pieces, pieces, h k List.mem_cons_self, ih fun l hl => h l (List.mem_cons_of_mem _ hl)]

/-- **The edited page is what stands between the marks, and what is left of them.** -/
theorem spliced_eq_pieces (hm : AreMarksFrom names t a ks) (hb : Edit.Between a t.length es)
    (hwithin : ∀ e ∈ es, e.StaysWithin t ks) :
    Edit.spliced t t.length a es = pieces t (leftAt t es) (addedAtEnd t es).flatten a ks := by
  induction ks generalizing a es with
  | nil =>
    have hend : ∀ e ∈ es, e.span = Span.empty t.length := fun e he =>
      (hwithin e he).resolve_right fun ⟨k, hk, _⟩ => absurd hk List.not_mem_nil
    have hall : addedAtEnd t es = es.map (·.text) := by
      rw [addedAtEnd, List.filter_eq_self.mpr fun e he => by simpa using hend e he]
    rw [spliced_at_end hb hend, pieces, hall]
  | cons k ks ih =>
    obtain ⟨hrest, hspliced⟩ := spliced_at_mark hb hm.le_start hm.stop_le hm.behind hwithin
    have hih := ih hm.tail hrest fun e he =>
      staysWithin_of_mem_editsFrom hwithin hm.stop_le hm.behind he
    rw [hspliced, hih, addedAtEnd_editsFrom hm.stop_le,
      pieces_congr _ fun l hl => leftAt_editsFrom (hm.behind l hl)]
    rfl

end CiteMarkup
