import CiteMarkup.Chain.Entry
import CiteMarkup.Proofs.Template.Params
/-!
# Where the values of a chain stand

A chained citation is changed in place by putting new names where the old ones stand.  The
segments of its parameter text make up the text, each entry has its value within a segment of
its own, and so the values stand one behind the other (`pairwise_placedEntries`).
-/

namespace CiteMarkup

/-! ## 1. Segments -/

/-- How much room segments take up, each with a bar behind it. -/
def roomOf (segments : List Text) : Nat := (segments.map fun s => s.length + 1).sum

@[simp] theorem roomOf_cons (s : Text) (segments : List Text) :
    roomOf (s :: segments) = s.length + 1 + roomOf segments := by
  simp [roomOf]

theorem length_cutApart : ∀ {lengths : List Nat} {t : Text},
    (lengths.map (· + 1)).sum ≤ t.length + 1 → (cutApart lengths t).map (·.length) = lengths
  | [], t, _ => rfl
  | n :: ns, t, h => by
    simp only [List.map_cons, List.sum_cons] at h
    rw [cutApart, List.map_cons, List.length_take, length_cutApart, Nat.min_eq_left (by omega)]
    rw [List.length_drop]
    omega

/-- The segments of a parameter text take up the text and a bar more. -/
theorem roomOf_segments (t : Text) :
    roomOf (cutApart (segmentLengths t) t) = t.length + 1 := by
  have hsum := sum_segmentLengths t
  have hlen := length_cutApart (Nat.le_of_eq hsum)
  have hroom : ∀ segments : List Text,
      roomOf segments = ((segments.map (·.length)).map (· + 1)).sum := fun segments => by
    rw [roomOf, List.map_map]
    rfl
  rw [hroom, hlen, hsum]

/-! ## 2. Values -/

/-- The value of an assignment lies in the segment. -/
theorem Assignment.bounds_ofSegment (segment : Text) :
    (ofSegment segment).offset + (ofSegment segment).value.length ≤ segment.length := by
  have hbody := Text.leadingBlanks_add_length_trim_le segment
  simp only [ofSegment]
  split
  · rename_i e he
    have hlt := lt_of_equalsSign? he
    have hrest := Text.leadingBlanks_add_length_trim_le (segment.trim.drop (e + 1))
    rw [List.length_drop] at hrest
    simp only
    omega
  · simpa using hbody

/-- The value of an assignment stands at its offset in the segment. -/
theorem Assignment.slice_ofSegment (segment : Text) :
    segment.slice (ofSegment segment).offset
      ((ofSegment segment).offset + (ofSegment segment).value.length) =
        (ofSegment segment).value := by
  have hbody := Text.slice_trim segment
  simp only [ofSegment]
  split
  · rename_i e he
    have hlt := lt_of_equalsSign? he
    have hrest := Text.slice_trim (segment.trim.drop (e + 1))
    have hroom := Text.leadingBlanks_add_length_trim_le (segment.trim.drop (e + 1))
    rw [List.length_drop] at hroom
    generalize hb : Text.leadingBlanks (segment.trim.drop (e + 1)) = b at *
    generalize hn : (Text.trim (segment.trim.drop (e + 1))).length = n at *
    calc segment.slice (segment.leadingBlanks + e + 1 + b) (segment.leadingBlanks + e + 1 + b + n)
        = segment.slice (segment.leadingBlanks + (e + 1 + b))
            (segment.leadingBlanks + (e + 1 + (b + n))) := by congr 1 <;> omega
      _ = (segment.slice segment.leadingBlanks (segment.leadingBlanks + segment.trim.length)).slice
            (e + 1 + b) (e + 1 + (b + n)) := (Text.slice_slice _ (by omega)).symm
      _ = segment.trim.slice (e + 1 + b) (e + 1 + (b + n)) := by rw [hbody]
      _ = Text.slice (segment.trim.drop (e + 1)) b (b + n) := (Text.slice_drop _ _ _ _).symm
      _ = Text.trim (segment.trim.drop (e + 1)) := hrest
  · exact hbody

/-- What stands in the first of several segments, if anything does, and what is read from the
others. -/
theorem entriesFrom_cons (offset : Nat) (s : Tally) (segment : Text) (rest : List Text) :
    ∃ s', entriesFrom offset s (segment :: rest) =
        entriesFrom (offset + segment.length + 1) s' rest ∨
      ∃ e : PlacedEntry, entriesFrom offset s (segment :: rest) =
          e :: entriesFrom (offset + segment.length + 1) s' rest ∧
        offset ≤ e.span.start ∧ e.span.start < e.span.stop ∧
        e.span.stop ≤ offset + segment.length ∧ e.span.stop = e.span.start + e.value.length ∧
        segment.slice (e.span.start - offset) (e.span.stop - offset) = e.value := by
  rw [entriesFrom]
  split
  · exact ⟨_, .inl rfl⟩
  · obtain ⟨role, index, s', hc⟩ : ∃ role index s',
        s.count (KeyMeaning.of (Assignment.ofSegment segment).key) = (role, index, s') :=
      ⟨_, _, _, rfl⟩
    simp only [hc]
    split
    · exact ⟨_, .inl rfl⟩
    · rename_i hvalue
      have hb := Assignment.bounds_ofSegment segment
      have hpos : (Assignment.ofSegment segment).value.length ≠ 0 := fun h =>
        hvalue (List.isEmpty_iff.mpr (List.length_eq_zero_iff.mp h))
      refine ⟨_, .inr ⟨_, rfl, ?_⟩⟩
      simp only [Span.start_ofLength, Span.stop_ofLength, true_and]
      refine ⟨by omega, by omega, by omega, ?_⟩
      rw [Nat.add_assoc, Nat.add_sub_cancel_left, Nat.add_sub_cancel_left]
      exact Assignment.slice_ofSegment segment

/-- The span of an entry is as long as its value. -/
theorem length_of_mem_entriesFrom {e : PlacedEntry} : ∀ {segments : List Text} {offset : Nat}
    {s : Tally}, e ∈ entriesFrom offset s segments → e.span.stop = e.span.start + e.value.length
  | [], offset, s, h => by simp [entriesFrom] at h
  | segment :: rest, offset, s, h => by
    obtain ⟨s', heq | ⟨e', heq, -, -, -, hlen, -⟩⟩ := entriesFrom_cons offset s segment rest
    · rw [heq] at h
      exact length_of_mem_entriesFrom h
    · rw [heq] at h
      rcases List.mem_cons.mp h with rfl | h
      · exact hlen
      · exact length_of_mem_entriesFrom h

theorem bounds_of_mem_entriesFrom {e : PlacedEntry} : ∀ {segments : List Text} {offset : Nat}
    {s : Tally}, e ∈ entriesFrom offset s segments →
    offset ≤ e.span.start ∧ e.span.start < e.span.stop ∧
      e.span.stop + 1 ≤ offset + roomOf segments
  | [], offset, s, h => by simp [entriesFrom] at h
  | segment :: rest, offset, s, h => by
    obtain ⟨s', heq | ⟨e', heq, hlo, hlt, hhi, -⟩⟩ := entriesFrom_cons offset s segment rest
    · rw [heq] at h
      have := bounds_of_mem_entriesFrom h
      rw [roomOf_cons]
      omega
    · rw [heq] at h
      rw [roomOf_cons]
      rcases List.mem_cons.mp h with rfl | h
      · omega
      · have := bounds_of_mem_entriesFrom h
        omega

theorem pairwise_entriesFrom : ∀ (segments : List Text) (offset : Nat) (s : Tally),
    (entriesFrom offset s segments).Pairwise fun e f => e.span.stop < f.span.start
  | [], offset, s => by simp [entriesFrom]
  | segment :: rest, offset, s => by
    obtain ⟨s', heq | ⟨e, heq, hlo, hlt, hhi, -⟩⟩ := entriesFrom_cons offset s segment rest
    · rw [heq]
      exact pairwise_entriesFrom rest _ s'
    · rw [heq]
      refine List.pairwise_cons.mpr ⟨fun f hf => ?_, pairwise_entriesFrom rest _ s'⟩
      have := (bounds_of_mem_entriesFrom hf).1
      omega

/-- Segments stand in a text from an offset on, with a character between two. -/
def Standing (t : Text) : (offset : Nat) → List Text → Prop
  | _, [] => True
  | offset, s :: segments =>
    t.slice offset (offset + s.length) = s ∧ Standing t (offset + s.length + 1) segments

theorem standing_cutApart {t : Text} : ∀ {lengths : List Nat} {offset : Nat},
    offset + (lengths.map (· + 1)).sum ≤ t.length + 1 →
      Standing t offset (cutApart lengths (t.drop offset))
  | [], offset, _ => trivial
  | n :: ns, offset, h => by
    simp only [List.map_cons, List.sum_cons] at h
    have hlen : ((t.drop offset).take n).length = n := by
      rw [List.length_take, List.length_drop, Nat.min_eq_left (by omega)]
    rw [cutApart, Standing, hlen, List.drop_drop]
    refine ⟨?_, standing_cutApart (by omega)⟩
    rw [Text.slice_add]

/-- A value stands in its place. -/
theorem cut_of_mem_entriesFrom {t : Text} {e : PlacedEntry} :
    ∀ {segments : List Text} {offset : Nat} {s : Tally}, Standing t offset segments →
      e ∈ entriesFrom offset s segments → t.cut e.span = e.value
  | [], offset, s, _, h => by simp [entriesFrom] at h
  | segment :: rest, offset, s, hstanding, h => by
    obtain ⟨hslice, hrest⟩ := hstanding
    obtain ⟨s', heq | ⟨e', heq, hlo, hlt, hhi, -, hvalue⟩⟩ :=
      entriesFrom_cons offset s segment rest
    · rw [heq] at h
      exact cut_of_mem_entriesFrom hrest h
    · rw [heq] at h
      rcases List.mem_cons.mp h with rfl | h
      · rw [← hslice, Text.slice_slice _ (by omega)] at hvalue
        rw [Text.cut, ← hvalue]
        congr 1 <;> omega
      · exact cut_of_mem_entriesFrom hrest h

/-! ## 3. Entries of a parameter text -/

/-- The entries of a text are read from segments that take up no more than the text. -/
theorem placedEntries_eq (t : Text) :
    ∃ offset segments, placedEntries t = entriesFrom offset {} segments ∧
      offset + roomOf segments ≤ t.length + 1 ∧ Standing t offset segments := by
  unfold placedEntries
  split
  · rename_i r
    split
    · exact ⟨0, [], rfl, by simp [roomOf], trivial⟩
    · refine ⟨1, _, rfl, by rw [roomOf_segments, List.length_cons]; omega, ?_⟩
      change Standing ('|' :: r) 1 (cutApart (segmentLengths r) (('|' :: r).drop 1))
      refine standing_cutApart ?_
      rw [sum_segmentLengths, List.length_cons]
      omega
  · split
    · exact ⟨0, [], rfl, by simp [roomOf], trivial⟩
    · refine ⟨0, _, rfl, by rw [roomOf_segments]; omega, ?_⟩
      change Standing t 0 (cutApart (segmentLengths t) (t.drop 0))
      refine standing_cutApart ?_
      rw [sum_segmentLengths]
      omega

/-- **A value lies within the parameter text**, and is not empty. -/
theorem bounds_of_mem_placedEntries {t : Text} {e : PlacedEntry} (h : e ∈ placedEntries t) :
    e.span.start < e.span.stop ∧ e.span.stop ≤ t.length := by
  obtain ⟨offset, segments, heq, hroom, -⟩ := placedEntries_eq t
  rw [heq] at h
  have := bounds_of_mem_entriesFrom h
  omega

/-- A value is not empty. -/
theorem value_ne_nil {t : Text} {e : PlacedEntry} (h : e ∈ placedEntries t) : e.value ≠ [] := by
  have hlt := (bounds_of_mem_placedEntries h).1
  obtain ⟨offset, segments, heq, -, -⟩ := placedEntries_eq t
  rw [heq] at h
  have hlen := length_of_mem_entriesFrom h
  intro hnil
  rw [hnil, List.length_nil] at hlen
  omega

/-- **A value stands in its place.** -/
theorem cut_of_mem_placedEntries {t : Text} {e : PlacedEntry} (h : e ∈ placedEntries t) :
    t.cut e.span = e.value := by
  obtain ⟨offset, segments, heq, -, hstanding⟩ := placedEntries_eq t
  rw [heq] at h
  exact cut_of_mem_entriesFrom hstanding h

/-- **Values stand one behind the other.** -/
theorem pairwise_placedEntries (t : Text) :
    (placedEntries t).Pairwise fun e f => e.span.stop < f.span.start := by
  obtain ⟨offset, segments, heq, -⟩ := placedEntries_eq t
  rw [heq]
  exact pairwise_entriesFrom segments offset {}

end CiteMarkup
