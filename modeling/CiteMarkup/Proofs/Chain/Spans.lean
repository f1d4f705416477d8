import CiteMarkup.Proofs.Chain.Places
import CiteMarkup.Proofs.Chain.Rereading
import CiteMarkup.Proofs.Edit.Substitution
/-!
# Values and the places they are edited at

An entry of a chain says where its value stands.  There is exactly the value there, the places come
in the order of the entries, and something stands between any two of them.  So other values can be
put in the places of some of them at once, in whatever order that is planned, on any page that the
parameter text is part of (`values_at_their_spans`).
-/

namespace CiteMarkup

/-! ## 1. Edits further on -/

namespace Edit

variable {t : Text} {a b : Nat} {es : List Edit}

/-- The edit, `n` characters further on. -/
def shift (n : Nat) (e : Edit) : Edit := ⟨e.span.shift n, e.text⟩

theorem Between.shift (n : Nat) (h : Between a b es) :
    Between (n + a) (n + b) (es.map (Edit.shift n)) := by
  induction es generalizing a with
  | nil => exact Nat.add_le_add_left h n
  | cons e es ih => exact ⟨Nat.add_le_add_left h.1 n, ih h.2⟩

/-- What a text becomes does not depend on where it stands. -/
theorem spliced_shift (front back : Text) (h : Between a b es) (hb : b ≤ t.length) :
    spliced (front ++ (t ++ back)) (front.length + b) (front.length + a)
      (es.map (shift front.length)) = spliced t b a es := by
  have hslice : ∀ i j, j ≤ t.length →
      Text.slice (front ++ (t ++ back)) (front.length + i) (front.length + j) = t.slice i j := by
    intro i j hj
    rw [Text.slice_append_right, Text.slice_append_left _ _ hj]
  induction es generalizing a with
  | nil => exact hslice a b hb
  | cons e es ih =>
    have hstart : e.span.start ≤ t.length :=
      Nat.le_trans e.span.ordered (Nat.le_trans h.2.le hb)
    rw [List.map_cons, spliced, spliced]
    simp only [shift, Span.start_shift, Span.stop_shift]
    rw [hslice a _ hstart, ← ih h.2]

end Edit

/-! ## 2. Values in the places of others -/

section Placed

variable {t : Text} {e : PlacedEntry}

/-- The value of an entry is found again as it was written. -/
theorem isValue_of_mem_placedEntries (h : e ∈ placedEntries t) : IsValue e.value := by
  obtain ⟨offset, segments, heq, -, -⟩ := placedEntries_eq t
  have hmem : e.toEntry ∈ readEntries {} segments := by
    rw [← map_toEntry_entriesFrom segments offset, ← heq]
    exact List.mem_map_of_mem h
  exact (isRead_of_mem_readEntries hmem).value

/-- The edits that put values in the places of those of entries. -/
def valueEdits (chosen : List (PlacedEntry × Text)) : List Edit :=
  chosen.map fun x => ⟨x.1.span, x.2⟩

/-- Values of several entries are put in one behind the other. -/
theorem between_valueEdits {chosen : List (PlacedEntry × Text)}
    (h : (chosen.map Prod.fst).Sublist (placedEntries t)) :
    (valueEdits chosen).Pairwise (fun e f => e.span.stop < f.span.start) ∧
      Edit.Between 0 t.length (valueEdits chosen) := by
  have hpair : (valueEdits chosen).Pairwise fun e f => e.span.stop < f.span.start :=
    List.pairwise_map.mpr (List.pairwise_map.mp ((pairwise_placedEntries t).sublist h))
  refine ⟨hpair, Edit.between_of_pairwise (Nat.zero_le _) (hpair.imp Nat.le_of_lt) ?_⟩
  intro edit hedit
  obtain ⟨x, hx, rfl⟩ := List.mem_map.mp hedit
  have hmem := h.mem (List.mem_map_of_mem hx)
  exact ⟨Nat.zero_le _, (bounds_of_mem_placedEntries hmem).2⟩

end Placed

/-- **Each value stands exactly in its place, and values can be replaced independently of each
other.**  A value is not empty and has no blanks around it.  Each place ends before the next one
begins.  Wherever the parameter text stands on a page, edits of some of the places put their texts
there and leave all else as it is, in whatever order they are planned. -/
theorem values_at_their_spans (t : Text) :
    (∀ e ∈ placedEntries t, t.cut e.span = e.value ∧ IsValue e.value ∧
      e.span.start < e.span.stop ∧ e.span.stop ≤ t.length) ∧
    ((placedEntries t).Pairwise fun e f => e.span.stop < f.span.start) ∧
    ∀ (front back : Text) (chosen : List (PlacedEntry × Text)) (edits : List Edit),
      (chosen.map Prod.fst).Sublist (placedEntries t) →
      edits.Perm ((valueEdits chosen).map (Edit.shift front.length)) →
        Edit.applyAll (front ++ (t ++ back)) edits =
          front ++ (Edit.spliced t t.length 0 (valueEdits chosen) ++ back) := by
  refine ⟨fun e he => ⟨cut_of_mem_placedEntries he, isValue_of_mem_placedEntries he,
    bounds_of_mem_placedEntries he⟩, pairwise_placedEntries t, ?_⟩
  intro front back chosen edits hchosen hperm
  obtain ⟨hpair, hbetween⟩ := between_valueEdits hchosen
  have hfurther : ((valueEdits chosen).map (Edit.shift front.length)).Pairwise
      fun e f => e.span.stop < f.span.start :=
    List.pairwise_map.mpr (hpair.imp fun hlt => Nat.add_lt_add_left hlt _)
  have hne : ((valueEdits chosen).map (Edit.shift front.length)).Pairwise
      fun e f => e.span ≠ f.span :=
    hfurther.imp fun {e f} hlt heq => by
      have := f.span.ordered
      rw [heq] at hlt
      omega
  have hsettle := Edit.settle_eq_self hne (hfurther.imp Nat.le_of_lt)
  have hlength : front.length + t.length ≤ (front ++ (t ++ back)).length := by
    simp only [List.length_append]
    omega
  have happly := Edit.applyAll_between (hbetween.shift front.length) hsettle hlength
  rw [Edit.spliced_shift front back hbetween (Nat.le_refl _)] at happly
  calc Edit.applyAll (front ++ (t ++ back)) edits
      = Edit.applyAll (front ++ (t ++ back))
        ((valueEdits chosen).map (Edit.shift front.length)) := by
        rw [Edit.applyAll, Edit.settle_perm hne hperm, Edit.applyAll]
    _ = front ++ (Edit.spliced t t.length 0 (valueEdits chosen) ++ back) := by
        rw [happly]
        simp

/-- Two of three values are replaced, the second one first: parameters without a value and the bar
of a link do not matter. -/
theorem values_at_their_spans_link :
    let t := "| a |n= [[x|y]] ||p=|p2=c".toList
    let first : PlacedEntry := ⟨⟨none, "a".toList, .name, 1⟩, ⟨2, 3, by decide⟩⟩
    let second : PlacedEntry := ⟨⟨some "n".toList, "[[x|y]]".toList, .name, 2⟩, ⟨8, 15, by decide⟩⟩
    [first, second].Sublist (placedEntries t) ∧
      Edit.applyAll ("\x7b\x7br".toList ++ (t ++ "\x7d\x7d".toList))
          [⟨second.span.shift 3, "u".toList⟩, ⟨first.span.shift 3, "v=w".toList⟩] =
        "\x7b\x7br| v=w |n= u ||p=|p2=c\x7d\x7d".toList := by
  intro t first second
  have hchosen : [first, second].Sublist (placedEntries t) := by decide
  refine ⟨hchosen, ?_⟩
  have happly := (values_at_their_spans t).2.2 "\x7b\x7br".toList "\x7d\x7d".toList
    [(first, "v=w".toList), (second, "u".toList)] _ hchosen (.swap _ _ [])
  refine happly.trans ?_
  decide

end CiteMarkup
