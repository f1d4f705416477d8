import CiteMarkup.Proofs.Page.Veil
import CiteMarkup.Template.Param
import Mathlib.Algebra.GroupWithZero.Nat
/-!
# Where parameters stand

The segments of a parameter text and the bars between them are the whole text
(`sum_segmentLengths`).  So the segments stand one behind the other within it, and each parameter
has its value within its own segment (`Page.bounds_of_mem_params`).
-/

namespace CiteMarkup

/-! ## 1. Pieces -/

section Pieces

variable {σ : Type} (pair? : σ → Char → Char → Option σ) (outside : σ → Bool) (sep : Char)

/-- The pieces of a text, each with the separator behind it, are as long as the text with a
separator behind it. -/
theorem sum_pieceLengthsFrom : ∀ (t : Text) (n : Nat) (inPair : Bool) (s : σ),
    ((pieceLengthsFrom pair? outside sep n inPair s t).map (· + 1)).sum = n + t.length + 1
  | [], n, inPair, s => by simp [pieceLengthsFrom]
  | c :: r, n, true, s => by
    rw [pieceLengthsFrom, sum_pieceLengthsFrom r, List.length_cons]
    omega
  | c :: r, n, false, s => by
    rw [pieceLengthsFrom]
    split
    · rw [sum_pieceLengthsFrom r, List.length_cons]
      omega
    · split
      · rw [List.map_cons, List.sum_cons, sum_pieceLengthsFrom r, List.length_cons]
        omega
      · rw [sum_pieceLengthsFrom r, List.length_cons]
        omega

/-- The first of several pieces ends at a separator. -/
theorem getElem?_of_pieceLengthsFrom {k j : Nat} {ks : List Nat} :
    ∀ {t : Text} {n : Nat} {inPair : Bool} {s : σ},
      pieceLengthsFrom pair? outside sep n inPair s t = k :: j :: ks →
      n ≤ k ∧ t[k - n]? = some sep
  | [], n, inPair, s, h => by simp [pieceLengthsFrom] at h
  | c :: r, n, inPair, s, h => by
    -- reading goes on in this piece: its end is found in the rest
    have later : ∀ {b : Bool} {s' : σ},
        pieceLengthsFrom pair? outside sep (n + 1) b s' r = k :: j :: ks →
        n ≤ k ∧ (c :: r)[k - n]? = some sep := by
      intro b s' hr
      obtain ⟨hle, hget⟩ := getElem?_of_pieceLengthsFrom hr
      refine ⟨by omega, ?_⟩
      rw [show k - n = (k - (n + 1)) + 1 by omega, List.getElem?_cons_succ]
      exact hget
    cases inPair with
    | true =>
      rw [pieceLengthsFrom] at h
      exact later h
    | false =>
      rw [pieceLengthsFrom] at h
      split at h
      · exact later h
      · split at h
        · rename_i hsep
          obtain ⟨rfl, -⟩ := List.cons.inj h
          simp only [Bool.and_eq_true, decide_eq_true_eq] at hsep
          simp [hsep.1]
        · exact later h

end Pieces

theorem sum_segmentLengths (t : Text) :
    ((segmentLengths t).map (· + 1)).sum = t.length + 1 := by
  rw [segmentLengths, sum_pieceLengthsFrom]
  omega

/-- The sign between key and value is a character of the text. -/
theorem lt_of_equalsSign? {t : Text} {e : Nat} (h : equalsSign? t = some e) : e < t.length := by
  have hsum := sum_pieceLengthsFrom depthPair? (· = 0) '=' t 0 false 0
  unfold equalsSign? at h
  split at h
  · rename_i n m ns hp
    obtain rfl : n = e := by simpa using h
    rw [hp] at hsum
    simp only [List.map_cons, List.sum_cons] at hsum
    omega
  · cases h

/-- The sign between key and value. -/
theorem getElem?_of_equalsSign? {t : Text} {e : Nat} (h : equalsSign? t = some e) :
    t[e]? = some '=' := by
  unfold equalsSign? at h
  split at h
  · rename_i n m ns hp
    obtain rfl : n = e := by simpa using h
    simpa using (getElem?_of_pieceLengthsFrom _ _ _ hp).2
  · cases h

/-! ## 2. Parameters of a text -/

/-- The value of a parameter lies in the text that it is taken from. -/
theorem Param.bounds_make (label : Label) (t : Text) (offset : Nat) (span : Span) :
    offset ≤ (Param.make label t offset span).valueStart ∧
      (Param.make label t offset span).valueStart + (Param.make label t offset span).value.length
        ≤ offset + t.length := by
  have h := Text.leadingBlanks_add_length_trim_le t
  simp only [Param.make]
  omega

namespace Page

variable {p : Page}

/-- Segments of the given lengths from `offset` on, each with a bar behind it, fit into the
text with a bar behind it. -/
def Fits (p : Page) (offset : Nat) (lengths : List Nat) : Prop :=
  offset + (lengths.map (· + 1)).sum ≤ p.raw.length + 1

theorem fits_segmentLengths (p : Page) : p.Fits 0 (segmentLengths p.seen) := by
  rw [Fits, sum_segmentLengths, p.aligned]
  omega

/-- What a parameter of the segment that begins at `offset` and has `n` characters looks
like: it has the segment for its span, its value inside, and its sign before the value. -/
structure IsSegment (p : Page) (q : Param) (offset n : Nat) : Prop where
  span_eq : q.span = Span.ofLength offset n
  start_le : offset ≤ q.valueStart
  le_stop : q.valueStart + q.value.length ≤ offset + n
  sign : q.isKeyed = true → ∃ e, p.seen[offset + e]? = some '=' ∧ offset + e + 1 ≤ q.valueStart

/-- The first of several segments gives a parameter, and the rest is read behind its bar. -/
theorem paramsFrom_cons (count : Nat) {offset n : Nat} {ns : List Nat}
    (hfit : p.Fits offset (n :: ns)) :
    ∃ q count', p.paramsFrom offset count (n :: ns) =
      q :: p.paramsFrom (offset + n + 1) count' ns ∧ p.IsSegment q offset n := by
  have hlen : (p.slice offset (offset + n)).raw.length = n := by
    simp only [Fits, List.map_cons, List.sum_cons] at hfit
    rw [raw_slice, Text.length_slice]
    omega
  rw [paramsFrom]
  split
  · rename_i e he
    have hlt := lt_of_equalsSign? he
    rw [(p.slice offset (offset + n)).aligned, hlen] at hlt
    have hb := Param.bounds_make (.key (Text.trim ((p.slice offset (offset + n)).raw.take e)))
      ((p.slice offset (offset + n)).raw.drop (e + 1)) (offset + e + 1)
      (Span.ofLength offset n)
    rw [List.length_drop, hlen] at hb
    refine ⟨_, _, rfl, rfl, by omega, by omega, fun _ => ⟨e, ?_, hb.1⟩⟩
    exact (Text.getElem?_of_slice (getElem?_of_equalsSign? he)).2
  · have h := Param.bounds_make (.position (count + 1)) (p.slice offset (offset + n)).raw offset
      (Span.ofLength offset n)
    rw [hlen] at h
    exact ⟨_, _, rfl, rfl, h.1, h.2, fun hk => by simp [Param.make, Param.isKeyed] at hk⟩

theorem Fits.tail {offset n : Nat} {ns : List Nat} (h : p.Fits offset (n :: ns)) :
    p.Fits (offset + n + 1) ns := by
  simp only [Fits, List.map_cons, List.sum_cons] at *
  omega

theorem bounds_of_mem_paramsFrom {q : Param} : ∀ {lengths : List Nat} {offset count : Nat},
    p.Fits offset lengths → q ∈ p.paramsFrom offset count lengths →
    offset ≤ q.span.start ∧ q.span.start ≤ q.valueStart ∧
      q.valueStart + q.value.length ≤ q.span.stop ∧ q.span.stop ≤ p.raw.length
  | [], offset, count, _, h => by simp [paramsFrom] at h
  | n :: ns, offset, count, hfit, h => by
    obtain ⟨q', count', heq, hseg⟩ := paramsFrom_cons count hfit
    rw [heq] at h
    rcases List.mem_cons.mp h with rfl | h
    · have hle := hseg.le_stop
      have hst := hseg.start_le
      simp only [Fits, List.map_cons, List.sum_cons] at hfit
      rw [hseg.span_eq]
      simp only [Span.start_ofLength, Span.stop_ofLength]
      omega
    · have := bounds_of_mem_paramsFrom hfit.tail h
      omega

theorem sign_of_mem_paramsFrom {q : Param} (hk : q.isKeyed = true) :
    ∀ {lengths : List Nat} {offset count : Nat},
    p.Fits offset lengths → q ∈ p.paramsFrom offset count lengths →
    ∃ e, p.seen[q.span.start + e]? = some '=' ∧ q.span.start + e + 1 ≤ q.valueStart
  | [], offset, count, _, h => by simp [paramsFrom] at h
  | n :: ns, offset, count, hfit, h => by
    obtain ⟨q', count', heq, hseg⟩ := paramsFrom_cons count hfit
    rw [heq] at h
    rcases List.mem_cons.mp h with rfl | h
    · rw [hseg.span_eq, Span.start_ofLength]
      exact hseg.sign hk
    · exact sign_of_mem_paramsFrom hk hfit.tail h

/-- **A parameter has its value within its segment, and that lies in the text.** -/
theorem bounds_of_mem_params {q : Param} (h : q ∈ p.params) :
    q.span.start ≤ q.valueStart ∧ q.valueStart + q.value.length ≤ q.span.stop ∧
      q.span.stop ≤ p.raw.length := by
  unfold params at h
  split at h
  · cases h
  · exact (bounds_of_mem_paramsFrom (fits_segmentLengths p) h).2

/-- A parameter with a key has its sign before its value. -/
theorem sign_of_mem_params {q : Param} (h : q ∈ p.params) (hk : q.isKeyed = true) :
    ∃ e, p.seen[q.span.start + e]? = some '=' ∧ q.span.start + e + 1 ≤ q.valueStart := by
  unfold params at h
  split at h
  · cases h
  · exact sign_of_mem_paramsFrom hk (fits_segmentLengths p) h

end Page
end CiteMarkup
