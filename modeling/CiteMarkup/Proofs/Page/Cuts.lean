import CiteMarkup.Proofs.Edit.Apply
import CiteMarkup.Proofs.Page.Split
/-!
# Places where a page can be cut

A page can be cut at an offset if the text in front of the offset is read by itself.  Between
two such places stands a text that is read by itself as well (`selfContained_slice`), and its
marks are the marks of the page that begin there (`mem_tokens_slice`).  A page that is edited
from one such place to another can be cut where it could be cut before
(`selfContained_spliced`).
-/

namespace CiteMarkup

variable {names : List Text} {t : Text} {a b : Nat} {k l : Token} {es : List Edit}

/-! ## 1. Stretches between two places -/

theorem selfContained_slice (hab : a ≤ b) (ha : SelfContained names (t.take a))
    (hb : SelfContained names (t.take b)) : SelfContained names (t.slice a b) := by
  have htake : t.take a ++ t.slice a b = t.take b :=
    Text.slice_append_slice t (Nat.zero_le a) hab
  exact ha.cancel (htake ▸ hb)

theorem slice_append_drop (hab : a ≤ b) (hb : b ≤ t.length) :
    t.slice a b ++ t.drop b = t.drop a := by
  rw [← Text.slice_length, Text.slice_append_slice t hab hb, Text.slice_length]

/-- The marks behind a place where the page can be cut. -/
theorem mem_tokens_drop (ha : SelfContained names (t.take a)) (hle : a ≤ t.length) :
    k ∈ ((Page.ofText (t.drop a)).tokens names).map (Token.shift a) ↔
      k ∈ (Page.ofText t).tokens names ∧ a ≤ k.span.start := by
  have hlength : (t.take a).length = a := List.length_take_of_le hle
  have htokens := ha.tokens_append (t.drop a)
  rw [List.take_append_drop, hlength] at htokens
  rw [htokens, List.mem_append]
  constructor
  · intro hk
    refine ⟨.inr hk, ?_⟩
    obtain ⟨l, -, rfl⟩ := List.mem_map.mp hk
    rw [Token.span_shift, Span.start_shift]
    omega
  · rintro ⟨hk | hk, hstart⟩
    · have hspan := Page.span_of_mem_tokens hk
      have hraw : (Page.ofText (t.take a)).raw.length = a := hlength
      omega
    · exact hk

/-- **The marks of a stretch are the marks of the page that begin there**, and they end there. -/
theorem mem_tokens_slice (hab : a ≤ b) (hb : b ≤ t.length) (hta : SelfContained names (t.take a))
    (htb : SelfContained names (t.take b)) :
    k ∈ ((Page.ofText (t.slice a b)).tokens names).map (Token.shift a) ↔
      k ∈ (Page.ofText t).tokens names ∧ a ≤ k.span.start ∧ k.span.start < b := by
  have hlength : (t.slice a b).length = b - a := by
    rw [Text.length_slice]
    omega
  have htokens := (selfContained_slice hab hta htb).tokens_append (t.drop b)
  rw [slice_append_drop hab hb, hlength] at htokens
  have hdrop := mem_tokens_drop (k := k) hta (Nat.le_trans hab hb)
  rw [htokens, List.map_append, List.mem_append] at hdrop
  constructor
  · intro hk
    obtain ⟨hmem, hstart⟩ := hdrop.mp (.inl hk)
    refine ⟨hmem, hstart, ?_⟩
    obtain ⟨l, hl, rfl⟩ := List.mem_map.mp hk
    have hspan := Page.span_of_mem_tokens hl
    have hraw : (Page.ofText (t.slice a b)).raw.length = b - a := hlength
    rw [Token.span_shift, Span.start_shift]
    omega
  · rintro ⟨hmem, hstart, hlt⟩
    refine (hdrop.mpr ⟨hmem, hstart⟩).resolve_right fun hk => ?_
    obtain ⟨l, hl, rfl⟩ := List.mem_map.mp hk
    obtain ⟨j, -, rfl⟩ := List.mem_map.mp hl
    simp only [Token.span_shift, Span.start_shift] at hlt
    omega

/-- A mark that begins in front of a place where the page can be cut ends in front of it. -/
theorem stop_le_of_start_lt (hb : SelfContained names (t.take b)) (hle : b ≤ t.length)
    (hk : k ∈ (Page.ofText t).tokens names) (hlt : k.span.start < b) : k.span.stop ≤ b := by
  have hmem := (mem_tokens_slice (Nat.zero_le b) hle .nil hb).mpr ⟨hk, Nat.zero_le _, hlt⟩
  obtain ⟨l, hl, rfl⟩ := List.mem_map.mp hmem
  have hspan := (Page.span_of_mem_tokens hl).2
  have hraw : (Page.ofText (t.slice 0 b)).raw.length = b := by
    change (t.slice 0 b).length = b
    rw [Text.length_slice]
    omega
  rw [Token.span_shift, Span.stop_shift]
  omega

/-- Marks that begin where the page can be cut do not overlap. -/
theorem eq_or_apart_of_cuts (hk : k ∈ (Page.ofText t).tokens names)
    (hl : l ∈ (Page.ofText t).tokens names) (hkcut : SelfContained names (t.take k.span.start))
    (hlcut : SelfContained names (t.take l.span.start)) : k = l ∨ k.span.Apart l.span := by
  have hlk := (Page.span_of_mem_tokens hk).2
  have hll := (Page.span_of_mem_tokens hl).2
  rcases Nat.lt_trichotomy k.span.start l.span.start with hlt | heq | hlt
  · exact .inr (.inl (stop_le_of_start_lt hlcut (Nat.le_trans l.span.ordered hll) hk hlt))
  · exact .inl (Page.eq_of_start_eq hk hl heq)
  · exact .inr (.inr (stop_le_of_start_lt hkcut (Nat.le_trans k.span.ordered hlk) hl hlt))

/-! ## 2. Edits between two places -/

/-- A page with edits can be cut where the page can be cut. -/
theorem selfContained_spliced (hb : Edit.Between a b es)
    (hta : SelfContained names (t.take a)) (htb : SelfContained names (t.take b))
    (hes : ∀ e ∈ es, SelfContained names (t.take e.span.start) ∧
      SelfContained names (t.take e.span.stop) ∧ SelfContained names e.text) :
    SelfContained names (Edit.spliced t b a es) := by
  induction es generalizing a with
  | nil => exact selfContained_slice hb hta htb
  | cons e es ih =>
    obtain ⟨hfront, hback, htext⟩ := hes e List.mem_cons_self
    have hrest := ih hb.2 hback fun f hf => hes f (List.mem_cons_of_mem _ hf)
    exact ((selfContained_slice hb.1 hta hfront).append htext).append hrest

/-- **The marks of what an edit writes are marks of the page with the edits**, moved together to
where the text of the edit has come to stand. -/
theorem tokens_of_edit {e : Edit} (hb : Edit.Between 0 t.length es) (he : e ∈ es)
    (hes : ∀ e ∈ es, SelfContained names (t.take e.span.start) ∧
      SelfContained names (t.take e.span.stop) ∧ SelfContained names e.text) :
    ∃ n, ∀ k ∈ (Page.ofText e.text).tokens names,
      k.shift n ∈ (Page.ofText (Edit.spliced t t.length 0 es)).tokens names := by
  obtain ⟨front, back, rfl⟩ := List.append_of_mem he
  obtain ⟨hstart, -, htext⟩ := hes e he
  have hfront : SelfContained names (Edit.spliced t e.span.start 0 front) :=
    selfContained_spliced hb.around.1 .nil hstart fun f hf => hes f (List.mem_append_left _ hf)
  refine ⟨(Edit.spliced t e.span.start 0 front).length, fun k hk => ?_⟩
  rw [Edit.spliced_around hb, hfront.tokens_append, htext.tokens_append, List.mem_append]
  exact .inr (List.mem_map_of_mem (List.mem_append_left _ hk))

end CiteMarkup
