import CiteMarkup.Proofs.Edit.Settle
/-!
# What carrying out edits leads to

Edits that stand one behind the other are carried out independently of each other: the text
between two of them stays, and each puts its own text in its place (`spliced`).  Running them
from left to right, with each one moved by how much the text has grown, comes to the same
(`applyAll_eq_spliced`).
-/

namespace CiteMarkup
namespace Edit

variable {t : Text} {a b m : Nat} {e : Edit} {es fs : List Edit}

/-! ## 1. Splicing -/

/-- The edits stand one behind the other between two offsets. -/
def Between (a b : Nat) : List Edit → Prop
  | [] => a ≤ b
  | e :: es => a ≤ e.span.start ∧ Between e.span.stop b es

/-- The text between two offsets with the edits in the places of their stretches. -/
def spliced (t : Text) (b : Nat) : (a : Nat) → List Edit → Text
  | a, [] => t.slice a b
  | a, e :: es => t.slice a e.span.start ++ e.text ++ spliced t b e.span.stop es

theorem Between.le (h : Between a b es) : a ≤ b := by
  induction es generalizing a with
  | nil => exact h
  | cons e es ih =>
    have := ih h.2
    have := h.1
    have := e.span.ordered
    omega

theorem Between.start_le (h : Between a b es) (he : e ∈ es) : a ≤ e.span.start := by
  induction es generalizing a with
  | nil => cases he
  | cons f es ih =>
    rcases List.mem_cons.mp he with rfl | he
    · exact h.1
    · exact Nat.le_trans h.1 (Nat.le_trans f.span.ordered (ih h.2 he))

theorem Between.mono {a' : Nat} (h : Between a b es) (ha : a' ≤ a) : Between a' b es := by
  cases es with
  | nil => exact Nat.le_trans ha h
  | cons e es => exact ⟨Nat.le_trans ha h.1, h.2⟩

theorem Between.append (h : Between a m es) (h' : Between m b fs) : Between a b (es ++ fs) := by
  induction es generalizing a with
  | nil => exact h'.mono h
  | cons e es ih => exact ⟨h.1, ih h.2⟩

/-- What stands around one of the edits. -/
theorem Between.around (h : Between a b (es ++ e :: fs)) :
    Between a e.span.start es ∧ Between e.span.stop b fs := by
  induction es generalizing a with
  | nil => exact ⟨h.1, h.2⟩
  | cons f es ih => exact ⟨⟨h.1, (ih h.2).1⟩, (ih h.2).2⟩

/-- Edits in order, all of which lie between two offsets. -/
theorem between_of_pairwise (hab : a ≤ b)
    (hpair : es.Pairwise fun e f => e.span.stop ≤ f.span.start)
    (hwithin : ∀ e ∈ es, a ≤ e.span.start ∧ e.span.stop ≤ b) : Between a b es := by
  induction es generalizing a with
  | nil => exact hab
  | cons e es ih =>
    obtain ⟨hfirst, hpair⟩ := List.pairwise_cons.mp hpair
    obtain ⟨hstart, hstop⟩ := hwithin e List.mem_cons_self
    refine ⟨hstart, ih hstop hpair fun f hf => ⟨hfirst f hf, ?_⟩⟩
    exact (hwithin f (List.mem_cons_of_mem _ hf)).2

/-- Edits between two offsets that are for one stretch or apart, once they are settled. -/
theorem between_settle (hab : a ≤ b)
    (hapart : ∀ e ∈ es, ∀ f ∈ es, e.span = f.span ∨ e.span.Apart f.span)
    (hwithin : ∀ e ∈ es, a ≤ e.span.start ∧ e.span.stop ≤ b) : Between a b (settle es) := by
  have hpair : (settle es).Pairwise fun e f => e.span.stop ≤ f.span.start ∨ False :=
    pairwise_settle fun e he f hf => (hapart e he f hf).imp_right .inl
  exact between_of_pairwise hab (hpair.imp fun hef => hef.resolve_right id) fun e he =>
    hwithin e (mem_of_mem_settle he)

/-- What stands in front of an edit does not matter to it. -/
theorem slice_append_spliced (h : Between m b es) (ham : a ≤ m) :
    t.slice a m ++ spliced t b m es = spliced t b a es := by
  cases es with
  | nil => exact Text.slice_append_slice t ham h
  | cons e es =>
    rw [spliced, spliced, ← List.append_assoc, ← List.append_assoc,
      Text.slice_append_slice t ham h.1]

/-- **Edits before an offset and edits behind it are carried out by themselves.** -/
theorem spliced_append (h : Between a m es) (h' : Between m b fs) :
    spliced t b a (es ++ fs) = spliced t m a es ++ spliced t b m fs := by
  induction es generalizing a with
  | nil =>
    rw [List.nil_append, spliced, slice_append_spliced h' h]
  | cons e es ih =>
    rw [List.cons_append, spliced, spliced, ih h.2]
    simp only [List.append_assoc]

/-- What an edit writes stands between what the edits before it and those behind it lead to. -/
theorem spliced_around (h : Between a b (es ++ e :: fs)) :
    spliced t b a (es ++ e :: fs) =
      spliced t e.span.start a es ++ (e.text ++ spliced t b e.span.stop fs) := by
  have hfrom : Between e.span.start b (e :: fs) := ⟨Nat.le_refl _, h.around.2⟩
  rw [spliced_append h.around.1 hfrom, spliced, Text.slice_self, List.nil_append]

/-- An edit that writes what stands there already. -/
theorem spliced_cons_same (h : Between a b (e :: es)) (he : t.cut e.span = e.text) :
    spliced t b a (e :: es) = spliced t b a es := by
  rw [spliced, ← he, Text.cut, Text.slice_append_slice t h.1 e.span.ordered,
    slice_append_spliced h.2 (Nat.le_trans h.1 e.span.ordered)]

/-- Edits that change nothing can be left out. -/
theorem spliced_filter (h : Between a b es) (keep : Edit → Bool)
    (hkeep : ∀ e ∈ es, keep e = false → t.cut e.span = e.text) :
    Between a b (es.filter keep) ∧ spliced t b a (es.filter keep) = spliced t b a es := by
  induction es generalizing a with
  | nil => exact ⟨h, rfl⟩
  | cons e es ih =>
    obtain ⟨hbetween, heq⟩ := ih h.2 fun f hf => hkeep f (List.mem_cons_of_mem _ hf)
    cases hk : keep e with
    | true =>
      rw [List.filter_cons_of_pos hk]
      exact ⟨⟨h.1, hbetween⟩, by rw [spliced, spliced, heq]⟩
    | false =>
      have hle := Nat.le_trans h.1 e.span.ordered
      rw [List.filter_cons_of_neg (by simp [hk]),
        spliced_cons_same h (hkeep e List.mem_cons_self hk), ← slice_append_spliced hbetween hle,
        heq, slice_append_spliced h.2 hle]
      exact ⟨hbetween.mono hle, rfl⟩

/-! ## 2. Carrying edits out -/

/-- The text in front of an edit is done, and its length tells how much the text has grown. -/
theorem apply_progress {done : Text} (h : Between a t.length (e :: es)) :
    Progress.apply t.length ⟨done ++ t.drop a, done.length - a⟩ e =
      ⟨done ++ t.slice a e.span.start ++ e.text ++ t.drop e.span.stop,
        (done ++ t.slice a e.span.start ++ e.text).length - e.span.stop⟩ := by
  have hstart := h.1
  have hord := e.span.ordered
  have hstop := h.2.le
  have hslice : (t.slice a e.span.start).length = e.span.start - a := by
    rw [Text.length_slice]
    omega
  have hlength : (done ++ t.drop a).length = done.length + (t.length - a) := by
    rw [List.length_append, List.length_drop]
  have hfront : (done ++ t.drop a).upTo
      ((min e.span.start t.length : Nat) + ((done.length : Int) - a)) =
        done ++ t.slice a e.span.start := by
    rw [Text.upTo_natCast (n := done.length + (e.span.start - a)) _ (by omega) (by omega),
      List.take_length_add_append, Text.slice, List.drop_take]
  have hrest : (done ++ t.drop a).onFrom
      ((min e.span.stop t.length : Nat) + ((done.length : Int) - a)) = t.drop e.span.stop := by
    rw [Text.onFrom_natCast (n := done.length + (e.span.stop - a)) _ (by omega) (by omega),
      List.drop_length_add_append, List.drop_drop]
    congr 1
    omega
  simp only [Progress.apply, hfront, hrest, List.length_append, hslice]
  congr 1
  push_cast
  omega

theorem foldl_apply {done : Text} (h : Between a t.length es) :
    (es.foldl (Progress.apply t.length) ⟨done ++ t.drop a, done.length - a⟩).text =
      done ++ spliced t t.length a es := by
  induction es generalizing a done with
  | nil => rw [List.foldl_nil, spliced, Text.slice_length]
  | cons e es ih =>
    rw [List.foldl_cons, apply_progress h, ih h.2, spliced]
    simp only [List.append_assoc]

/-- **Edits that stand one behind the other are carried out independently of each other.** -/
theorem applyAll_eq_spliced {edits : List Edit} (h : Between 0 t.length (settle edits)) :
    applyAll t edits = spliced t t.length 0 (settle edits) := by
  have hdone := @foldl_apply t 0 (settle edits) [] h
  simpa [applyAll] using hdone

/-! ## 3. Edits that are settled already -/

theorem foldl_plan_of_pairwise {acc : List Edit}
    (h : (acc ++ es).Pairwise fun a b => a.span ≠ b.span) : es.foldl plan acc = acc ++ es := by
  induction es generalizing acc with
  | nil => simp
  | cons e es ih =>
    have hacc : acc.filter (·.span ≠ e.span) = acc := by
      rw [List.filter_eq_self]
      intro f hf
      have := (List.pairwise_append.mp h).2.2 f hf e List.mem_cons_self
      simpa using this
    rw [List.foldl_cons, plan, hacc, ih (by simpa using h)]
    simp

/-- Edits of different stretches that stand one behind the other are carried out as they
come. -/
theorem settle_eq_self (hne : es.Pairwise fun a b => a.span ≠ b.span)
    (h : es.Pairwise fun a b => a.span.stop ≤ b.span.start) : settle es = es := by
  have hbefore : es.Pairwise fun a b => before a b = true := by
    refine h.imp fun {a b} hab => ?_
    have := a.span.ordered
    have := b.span.ordered
    simp only [before, Bool.or_eq_true, Bool.and_eq_true, decide_eq_true_eq]
    omega
  have hplan : es.foldl plan [] = [] ++ es := foldl_plan_of_pairwise (by simpa using hne)
  rw [settle, hplan, List.nil_append, sortStable_eq]
  exact List.Pairwise.insertionSort_eq hbefore

/-- **Settled edits between two offsets** leave the text in front of them and the text behind. -/
theorem applyAll_between (h : Between a b es) (hsettled : settle es = es) (hb : b ≤ t.length) :
    applyAll t es = t.take a ++ spliced t b a es ++ t.drop b := by
  have hnone : Between b t.length [] := hb
  have hwhole : Between a t.length es := by
    have happend := h.append hnone
    rwa [List.append_nil] at happend
  have hsplit : spliced t t.length a es = spliced t b a es ++ t.drop b := by
    have happend := spliced_append (t := t) h hnone
    rwa [List.append_nil, spliced, Text.slice_length] at happend
  have hfront : t.slice 0 a = t.take a := rfl
  rw [applyAll_eq_spliced (hsettled.symm ▸ hwhole.mono (Nat.zero_le a)), hsettled,
    ← slice_append_spliced hwhole (Nat.zero_le a), hsplit, hfront, List.append_assoc]

end Edit
end CiteMarkup
