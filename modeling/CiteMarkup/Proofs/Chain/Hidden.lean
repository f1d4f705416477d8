import CiteMarkup.Chain.Entry
import CiteMarkup.Proofs.Chain.Keys
import CiteMarkup.Proofs.Template.Hidden
import CiteMarkup.Proofs.Template.Segments
/-!
# Chains with hidden parts

The entries of a chain are read from what is written, hidden parts and all, so a bar or a sign in
a hidden part can end an entry or begin its value.  If the separators that count are the seen ones
(`ReadsAsSeen`), then a chain has the entries that are seen: at the same places, with the same
roles and indices (`Hides.placedEntries`).  That is so if no bracket and no separator is hidden
(`readsAsSeen_of_inert`).
-/

namespace CiteMarkup

/-! ## 1. Keys -/

theorem isForeign_of_isEdge {c : Char} (h : IsEdge c) : IsForeign c := by
  rcases h with rfl | rfl <;> exact ⟨by decide, by decide⟩

theorem isForeign_veil : IsForeign veil := ⟨by decide, by decide⟩

variable {r s : Text}

/-- **A key says the same whether its hidden parts are seen or not.** -/
theorem Hides.keyMeaning_eq (h : Hides true r s) : KeyMeaning.of r = KeyMeaning.of s := by
  rcases h.eq_or_mem with ⟨rfl, -⟩ | ⟨⟨c, hc, hm⟩, hv⟩
  · rfl
  · have hdigits : trailingDigits r = trailingDigits s := congrArg List.reverse
      (h.reverse.takeWhile_eq (fun _ hx => (isForeign_of_isEdge hx).1) isForeign_veil.1)
    rw [keyMeaning_of_foreign (isForeign_of_isEdge hc) hm, keyMeaning_of_foreign isForeign_veil hv,
      hdigits]

/-! ## 2. Entries -/

/-- The entries stand at the same place and are for the same: role and index agree. -/
structure PlacedEntry.Alike (e e' : PlacedEntry) : Prop where
  role : e.role = e'.role
  index : e.index = e'.index
  span : e.span = e'.span

/-- The place of the sign between key and value in a segment. -/
def signOf (segment : Text) : Option Nat := equalsSign? segment.trim

/-- Cut at the same sign, a segment and what is seen of it have the same key and value. -/
theorem Hides.assignment (h : Hides true r s) (hsign : signOf r = signOf s) :
    Hides true (Assignment.ofSegment r).key (Assignment.ofSegment s).key ∧
      Hides true (Assignment.ofSegment r).value (Assignment.ofSegment s).value ∧
      (Assignment.ofSegment r).offset = (Assignment.ofSegment s).offset := by
  unfold signOf at hsign
  simp only [Assignment.ofSegment, hsign, h.leadingBlanks_eq]
  cases he : equalsSign? s.trim with
  | none => exact ⟨.nil, h.trim, rfl⟩
  | some e =>
    obtain ⟨-, hkey, hvalue⟩ := h.trim.cut_at (by decide) (getElem?_of_equalsSign? he)
    exact ⟨hkey.trim, hvalue.trim, congrArg (s.leadingBlanks + e + 1 + ·) hvalue.leadingBlanks_eq⟩

theorem Hides.entriesFrom {rs ss : List Text} (h : List.Forall₂ (Hides true) rs ss)
    (hsigns : rs.map signOf = ss.map signOf) (offset : Nat) (t : Tally) :
    List.Forall₂ PlacedEntry.Alike (entriesFrom offset t rs) (entriesFrom offset t ss) := by
  induction h generalizing offset t with
  | nil => exact .nil
  | @cons u v rs ss hsegment hrest ih =>
    obtain ⟨hsign, hsigns⟩ := List.cons.inj hsigns
    obtain ⟨hkey, hvalue, hoffset⟩ := hsegment.assignment hsign
    simp only [CiteMarkup.entriesFrom, hsegment.isBlankOnly_eq, hkey.keyMeaning_eq,
      hvalue.isEmpty_eq, ← hsegment.length_eq]
    split
    · exact ih hsigns _ _
    · split
      · exact ih hsigns _ _
      · refine .cons ⟨rfl, rfl, ?_⟩ (ih hsigns _ _)
        simp only [hoffset, hvalue.length_eq]

/-! ## 3. Chains -/

/-- The text that the entries are read from: a bar in front does not belong to it. -/
def entryText : Text → Text
  | '|' :: r => r
  | t => t

theorem entryText_cons {c : Char} (hc : c ≠ '|') (r : Text) : entryText (c :: r) = c :: r := by
  unfold entryText
  split
  · rename_i heq
    exact absurd (List.cons.inj heq).1 hc
  · rfl

theorem placedEntries_entryText (t : Text) :
    placedEntries t = if (entryText t).isEmpty then []
      else entriesFrom (t.length - (entryText t).length) {}
        (cutApart (segmentLengths (entryText t)) (entryText t)) := by
  unfold placedEntries
  split
  · rename_i r
    rw [show entryText ('|' :: r) = r from rfl, List.length_cons, Nat.add_sub_cancel_left]
  · rename_i hbar
    have htext : entryText t = t := by
      cases t with
      | nil => rfl
      | cons c r => exact entryText_cons (fun hc => hbar r (hc ▸ rfl)) r
    rw [htext, Nat.sub_self]

/-- In a parameter text the separators that count are those that are seen: it has the same
segments, and in each of them the same sign. -/
structure ReadsAsSeen (raw seen : Text) : Prop where
  segments : segmentLengths (entryText raw) = segmentLengths (entryText seen)
  signs : (cutApart (segmentLengths (entryText raw)) (entryText raw)).map signOf =
    (cutApart (segmentLengths (entryText seen)) (entryText seen)).map signOf

instance (raw seen : Text) : Decidable (ReadsAsSeen raw seen) :=
  decidable_of_iff (_ ∧ _) ⟨fun h => ⟨h.1, h.2⟩, fun h => ⟨h.segments, h.signs⟩⟩

theorem Hides.entryText (h : Hides true r s) : Hides true (entryText r) (entryText s) := by
  cases h with
  | nil => exact .nil
  | @shown _ c r s hc h =>
    by_cases hbar : c = '|'
    · subst hbar
      exact h
    · rw [entryText_cons hbar, entryText_cons hbar]
      exact .shown hc h
  | @hidden _ x y r s inner hx hy h =>
    have hedge : x ≠ '|' := by rcases hx with rfl | rfl <;> decide
    rw [entryText_cons hedge, entryText_cons (by decide)]
    exact .hidden inner hx hy h

/-- **A chain has the entries that are seen**, if the separators that count are seen. -/
theorem Hides.placedEntries (h : Hides true r s) (hreads : ReadsAsSeen r s) :
    List.Forall₂ PlacedEntry.Alike (placedEntries r) (placedEntries s) := by
  have htext := h.entryText
  rw [placedEntries_entryText, placedEntries_entryText, htext.isEmpty_eq, ← h.length_eq,
    ← htext.length_eq]
  split
  · exact .nil
  · have hcut := isCut_segmentLengths (CiteMarkup.entryText s)
    have hpieces := htext.pieces (by decide) hcut
    have hsigns := hreads.signs
    rw [hreads.segments] at hsigns ⊢
    exact Hides.entriesFrom hpieces hsigns _ _

/-! ## 4. Texts that hide no separator -/

/-- The characters that reading a parameter text can stop at. -/
def separators : List Char := ['|', '=', '{', '}', '[', ']']

/-- Both are the same character, or neither is a separator. -/
def SameSeparator (c d : Char) : Prop := c = d ∨ c ∉ separators ∧ d ∉ separators

theorem not_mem_brackets {c : Char} (hc : c ∉ separators) : c ∉ brackets := by
  simp only [separators, brackets, List.mem_cons, List.not_mem_nil, or_false, not_or] at hc ⊢
  exact hc.2.2

/-- A character that is no separator begins no pair. -/
theorem nesting_pair?_of_inert (n : Nesting) {c : Char} (hc : c ∉ separators) (d : Char) :
    n.pair? c d = none :=
  (isNeutral_nesting (not_mem_brackets hc) n d).1

theorem depthPair?_of_inert (n : Nat) {c : Char} (hc : c ∉ separators) (d : Char) :
    depthPair? n c d = none :=
  (isNeutral_depthPair? (not_mem_brackets hc) n d).1

theorem nesting_pair?_congr (n : Nesting) {c c' d d' : Char} (hc : SameSeparator c c')
    (hd : SameSeparator d d') : n.pair? c d = n.pair? c' d' := by
  rcases hc with rfl | ⟨hc, hc'⟩
  · rcases hd with rfl | ⟨hd, hd'⟩
    · rfl
    · by_cases hsep : c ∈ separators
      · -- a separator pairs with itself only
        rw [Nesting.pair?, Nesting.pair?, if_pos (by rintro rfl; exact hd hsep),
          if_pos (by rintro rfl; exact hd' hsep)]
      · rw [nesting_pair?_of_inert n hsep, nesting_pair?_of_inert n hsep]
  · rw [nesting_pair?_of_inert n hc, nesting_pair?_of_inert n hc']

theorem depthPair?_congr (n : Nat) {c c' d d' : Char} (hc : SameSeparator c c')
    (hd : SameSeparator d d') : depthPair? n c d = depthPair? n c' d' := by
  rcases hc with rfl | ⟨hc, hc'⟩
  · rcases hd with rfl | ⟨hd, hd'⟩
    · rfl
    · by_cases hsep : c ∈ separators
      · rw [depthPair?, depthPair?, if_pos (by rintro rfl; exact hd hsep),
          if_pos (by rintro rfl; exact hd' hsep)]
      · rw [depthPair?_of_inert n hsep, depthPair?_of_inert n hsep]
  · rw [depthPair?_of_inert n hc, depthPair?_of_inert n hc']

/-- A text in which the same separators stand is cut in the same way. -/
theorem pieceLengthsFrom_congr {σ : Type} {pair? : σ → Char → Char → Option σ}
    (outside : σ → Bool) {sep : Char} (hsep : sep ∈ separators)
    (hpair : ∀ (x : σ) {c c' d d' : Char}, SameSeparator c c' → SameSeparator d d' →
      pair? x c d = pair? x c' d')
    (h : List.Forall₂ SameSeparator r s) (n : Nat) (inPair : Bool) (x : σ) :
    pieceLengthsFrom pair? outside sep n inPair x r =
      pieceLengthsFrom pair? outside sep n inPair x s := by
  induction h generalizing n inPair x with
  | nil => cases inPair <;> rfl
  | @cons c c' r s hc hrest ih =>
    have hnext : r.head?.bind (pair? x c) = s.head?.bind (pair? x c') := by
      cases hrest with
      | nil => rfl
      | cons hd _ => exact hpair x hc hd
    have hends : (c = sep) = (c' = sep) := by
      rcases hc with rfl | ⟨hc, hc'⟩
      · rfl
      · rw [eq_iff_iff]
        exact ⟨fun heq => absurd (heq ▸ hsep) hc, fun heq => absurd (heq ▸ hsep) hc'⟩
    cases inPair with
    | true => exact ih _ _ _
    | false =>
      simp only [pieceLengthsFrom, hnext, hends, ih]

theorem signOf_congr (h : List.Forall₂ SameSeparator r s) (hhides : Hides true r s) :
    signOf r = signOf s := by
  have htrim : List.Forall₂ SameSeparator r.trim s.trim := by
    rw [← Text.slice_trim r, ← Text.slice_trim s, hhides.leadingBlanks_eq, hhides.trim.length_eq]
    exact List.forall₂_drop _ (List.forall₂_take _ h)
  have hpieces := pieceLengthsFrom_congr (fun n => n = 0) (by decide : '=' ∈ separators)
    depthPair?_congr htrim 0 false 0
  rw [signOf, signOf, equalsSign?, equalsSign?, hpieces]

theorem SameSeparator.entryText (h : List.Forall₂ SameSeparator r s) :
    List.Forall₂ SameSeparator (entryText r) (entryText s) := by
  cases h with
  | nil => exact .nil
  | @cons c d r s hc hrest =>
    by_cases hbar : c = '|'
    · subst hbar
      obtain rfl := hc.resolve_right fun hno => hno.1 (by decide)
      exact hrest
    · have hbar' : d ≠ '|' := by
        rintro rfl
        exact hbar (hc.resolve_right fun hno => hno.2 (by decide))
      rw [entryText_cons hbar, entryText_cons hbar']
      exact .cons hc hrest

theorem SameSeparator.cutApart (h : List.Forall₂ SameSeparator r s) (ks : List Nat) :
    List.Forall₂ (List.Forall₂ SameSeparator) (cutApart ks r) (cutApart ks s) := by
  induction ks generalizing r s with
  | nil => exact .nil
  | cons n ks ih => exact .cons (List.forall₂_take _ h) (ih (List.forall₂_drop _ h))

theorem map_eq_of_forall₂ {α β γ : Type} {R S : α → β → Prop} {f : α → γ} {g : β → γ}
    {l : List α} {l' : List β} (h : List.Forall₂ R l l') (h' : List.Forall₂ S l l')
    (hf : ∀ a b, R a b → S a b → f a = g b) : l.map f = l'.map g := by
  induction h with
  | nil => rfl
  | cons hab _ ih =>
    obtain ⟨hab', hrest⟩ := List.forall₂_cons.mp h'
    rw [List.map_cons, List.map_cons, hf _ _ hab hab', ih hrest]

/-- **What hides no separator is read as it is seen.** -/
theorem readsAsSeen_of_inert (h : List.Forall₂ SameSeparator r s) (hhides : Hides true r s) :
    ReadsAsSeen r s := by
  have htext := SameSeparator.entryText h
  have hsegments : segmentLengths (CiteMarkup.entryText r) =
      segmentLengths (CiteMarkup.entryText s) :=
    pieceLengthsFrom_congr Nesting.isOutside (by decide) nesting_pair?_congr htext 0 false {}
  refine ⟨hsegments, ?_⟩
  rw [hsegments]
  exact map_eq_of_forall₂ (SameSeparator.cutApart htext _)
    (hhides.entryText.pieces (by decide) (isCut_segmentLengths _)) fun _ _ => signOf_congr

end CiteMarkup
