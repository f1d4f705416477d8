import CiteMarkup.Proofs.Page.Hidden
import CiteMarkup.Proofs.Template.Places
/-!
# Templates with hidden parts

Separators, braces and signs count only where they are seen.  So a template stands where it does
whatever its hidden parts say, it has the same parameters at the same places
(`Hides.params`, `Hides.templatesWhere`), and a parameter whose key is partly hidden has no key that
anything asks for (`Param.Alike.hasKey_eq`).
-/

namespace CiteMarkup

/-! ## 1. Pieces -/

/-- The lengths are those of pieces between separators. -/
def IsCut (sep : Char) : List Nat → Text → Prop
  | [], _ => False
  | [n], t => n = t.length
  | n :: m :: ns, t => t[n]? = some sep ∧ IsCut sep (m :: ns) (t.drop (n + 1))

theorem IsCut.cons {sep c : Char} {k : Nat} {ks : List Nat} {r : Text}
    (h : IsCut sep (k :: ks) r) : IsCut sep ((k + 1) :: ks) (c :: r) := by
  cases ks with
  | nil => exact congrArg (· + 1) h
  | cons m ks => exact ⟨by simpa using h.1, by simpa using h.2⟩

/-- What is read as lengths of pieces are such lengths. -/
theorem exists_isCut {σ : Type} (pair? : σ → Char → Char → Option σ) (outside : σ → Bool)
    (sep : Char) (t : Text) (n : Nat) (inPair : Bool) (s : σ) :
    ∃ k ks, pieceLengthsFrom pair? outside sep n inPair s t = (n + k) :: ks ∧
      IsCut sep (k :: ks) t := by
  induction t generalizing n inPair s with
  | nil =>
    refine ⟨0, [], ?_, rfl⟩
    cases inPair <;> rfl
  | cons c r ih =>
    -- reading goes on in this piece
    have later : ∀ (b : Bool) (s' : σ), ∃ k ks,
        pieceLengthsFrom pair? outside sep (n + 1) b s' r = (n + k) :: ks ∧
          IsCut sep (k :: ks) (c :: r) := by
      intro b s'
      obtain ⟨k, ks, heq, hcut⟩ := ih (n + 1) b s'
      exact ⟨k + 1, ks, by rw [heq]; congr 1; omega, hcut.cons⟩
    cases inPair with
    | true => exact later false s
    | false =>
      rw [pieceLengthsFrom]
      split
      · exact later true _
      · split
        · rename_i hsep
          obtain ⟨k, ks, heq, hcut⟩ := ih 0 false s
          simp only [Bool.and_eq_true, decide_eq_true_eq] at hsep
          refine ⟨0, (0 + k) :: ks, by rw [heq, Nat.add_zero], ?_⟩
          rw [Nat.zero_add]
          exact ⟨by simp [hsep.1], hcut⟩
        · exact later false s

theorem isCut_segmentLengths (t : Text) : IsCut '|' (segmentLengths t) t := by
  obtain ⟨k, ks, heq, hcut⟩ :=
    exists_isCut Nesting.pair? Nesting.isOutside '|' t 0 false {}
  rw [segmentLengths, heq, Nat.zero_add]
  exact hcut

/-- Pieces between separators that are seen are closed. -/
theorem Hides.pieces {r s : Text} {sep : Char} (h : Hides true r s) (hsep : IsSeen sep)
    {ks : List Nat} (hcut : IsCut sep ks s) :
    List.Forall₂ (Hides true) (cutApart ks r) (cutApart ks s) := by
  induction ks generalizing r s with
  | nil => exact hcut.elim
  | cons n ks ih =>
    cases ks with
    | nil =>
      obtain rfl : n = s.length := hcut
      change List.Forall₂ _ [r.take s.length] [s.take s.length]
      rw [List.take_length, List.take_of_length_le (Nat.le_of_eq h.length_eq.symm)]
      exact .cons h .nil
    | cons m ks =>
      obtain ⟨-, hfront, hback⟩ := h.cut_at hsep hcut.1
      rw [cutApart, cutApart]
      exact .cons hfront (ih hback hcut.2)

/-! ## 2. Parameters -/

/-- The parameters stand at the same places, and the one is what is seen of the other. -/
structure Param.Alike (q q' : Param) : Prop where
  span : q.span = q'.span
  valueStart : q.valueStart = q'.valueStart
  value : Hides true q.value q'.value
  isKeyed : q.isKeyed = q'.isKeyed
  name : q.isKeyed = true → Hides true q.name q'.name

/-- A page and what is seen of it have the same parameters. -/
theorem Hides.paramsFrom {p : Page} {ns : List Nat} {offset count : Nat}
    (h : Hides true (p.raw.drop offset) (p.seen.drop offset))
    (hcut : IsCut '|' ns (p.seen.drop offset)) :
    List.Forall₂ Param.Alike (p.paramsFrom offset count ns)
      ((Page.bare p.seen).paramsFrom offset count ns) := by
  have hbar : IsSeen '|' := by decide
  have hsign : IsSeen '=' := by decide
  induction ns generalizing offset count with
  | nil => exact hcut.elim
  | cons n ns ih =>
    -- the segment, and what stands behind its bar
    obtain ⟨hsegment, hrest⟩ : Hides true (p.raw.slice offset (offset + n))
          (p.seen.slice offset (offset + n)) ∧
        ∀ count', List.Forall₂ Param.Alike (p.paramsFrom (offset + n + 1) count' ns)
          ((Page.bare p.seen).paramsFrom (offset + n + 1) count' ns) := by
      rw [Text.slice_add, Text.slice_add]
      cases ns with
      | nil =>
        obtain rfl : n = (p.seen.drop offset).length := hcut
        rw [List.take_length, List.take_of_length_le (Nat.le_of_eq h.length_eq.symm)]
        exact ⟨h, fun _ => .nil⟩
      | cons m ns =>
        obtain ⟨-, hfront, hback⟩ := h.cut_at hbar hcut.1
        have hdrop : ∀ t : Text, t.drop (offset + n + 1) = (t.drop offset).drop (n + 1) :=
          fun t => by rw [List.drop_drop, Nat.add_assoc]
        refine ⟨hfront, fun count' => ih ?_ ?_⟩
        · rw [hdrop, hdrop]
          exact hback
        · rw [hdrop]
          exact hcut.2
    have hseen : ((Page.bare p.seen).slice offset (offset + n)).seen =
        (p.slice offset (offset + n)).seen := rfl
    rw [Page.paramsFrom, Page.paramsFrom, hseen]
    cases he : equalsSign? (p.slice offset (offset + n)).seen with
    | some e =>
      obtain ⟨-, hkey, hvalue⟩ := hsegment.cut_at hsign (getElem?_of_equalsSign? he)
      refine .cons ⟨rfl, ?_, hvalue.trim, rfl, fun _ => hkey.trim⟩ (hrest count)
      exact congrArg (offset + e + 1 + ·) hvalue.leadingBlanks_eq
    | none =>
      refine .cons ⟨rfl, ?_, hsegment.trim, rfl, fun hk => by cases hk⟩ (hrest (count + 1))
      exact congrArg (offset + ·) hsegment.leadingBlanks_eq

theorem Hides.params {p : Page} (h : Hides true p.raw p.seen) :
    List.Forall₂ Param.Alike p.params (Page.bare p.seen).params := by
  rw [Page.params, Page.params]
  rw [show (Page.bare p.seen).raw = p.seen from rfl, h.isEmpty_eq]
  split
  · exact .nil
  · exact Hides.paramsFrom h (isCut_segmentLengths _)

/-! ## 3. Keys and names -/

/-- Neither of the brackets that hidden parts begin and end with stands in the text. -/
def IsOpen (t : Text) : Prop := '<' ∉ t ∧ '>' ∉ t

instance (t : Text) : Decidable (IsOpen t) := inferInstanceAs (Decidable (_ ∧ _))

theorem IsOpen.not_edge {t : Text} (h : IsOpen t) {c : Char} (hc : IsEdge c) : c ∉ t := by
  rcases hc with rfl | rfl
  · exact h.1
  · exact h.2

/-- Two texts that look the same are both read as an open text, or neither is, if the reading
keeps brackets: a text that is partly hidden is never read as one. -/
theorem Hides.reading_iff {r r' s w : Text} (h : Hides true r s) (h' : Hides true r' s)
    (hw : IsOpen w) (f : Text → Text)
    (hf : ∀ {c : Char} {t : Text}, IsEdge c → c ∈ t → c ∈ f t) : f r = w ↔ f r' = w := by
  have never : ∀ {t : Text}, (∃ c, IsEdge c ∧ c ∈ t) → f t ≠ w := by
    rintro t ⟨c, hc, hm⟩ heq
    exact hw.not_edge hc (heq ▸ hf hc hm)
  rcases h.eq_or_mem with ⟨rfl, hno⟩ | ⟨hedge, hv⟩
  · rcases h'.eq_or_mem with ⟨rfl, -⟩ | ⟨-, hv⟩
    · exact Iff.rfl
    · exact absurd hv hno
  · rcases h'.eq_or_mem with ⟨-, hno⟩ | ⟨hedge', -⟩
    · exact absurd hv hno
    · exact ⟨fun heq => absurd heq (never hedge), fun heq => absurd heq (never hedge')⟩

theorem mem_lower {c : Char} {t : Text} (hc : IsEdge c) (h : c ∈ t) : c ∈ Text.lower t := by
  have hown : IsOwnLower c := by rcases hc with rfl | rfl <;> decide
  exact mem_lowerFrom hown h []

theorem mem_squash {kind : Char → Bool} {c w : Char} {t : Text} (h : c ∈ t)
    (hc : kind c = false) : c ∈ Text.squash kind w t := by
  induction t with
  | nil => cases h
  | cons d r ih =>
    rw [Text.squash]
    rcases List.mem_cons.mp h with rfl | h
    · rw [if_neg (by simp [hc])]
      exact List.mem_cons_self
    · split
      · split
        · exact ih h
        · exact List.mem_cons_of_mem _ (ih h)
      · exact List.mem_cons_of_mem _ (ih h)

theorem mem_canonicalName {c : Char} {t : Text} (hc : IsEdge c) (h : c ∈ t) :
    c ∈ canonicalName t := by
  have hblank := Hides.isBlank_of_isEdge hc
  have hscore : c ≠ '_' := by rcases hc with rfl | rfl <;> decide
  exact mem_lower hc (Text.mem_trim (mem_squash h (by simp [hblank, hscore])) hblank)

/-- A key that is asked for is found under two parameters that look the same, or under
neither. -/
theorem Param.Alike.hasKey_eq {q q' x : Param} (h : q.Alike x) (h' : q'.Alike x) {key : Text}
    (hkey : IsOpen key) : q.hasKey key = q'.hasKey key := by
  have hkeyed : q.isKeyed = q'.isKeyed := h.isKeyed.trans h'.isKeyed.symm
  unfold Param.hasKey
  rw [← hkeyed]
  cases hk : q.isKeyed with
  | false => rfl
  | true =>
    rw [Bool.true_and, Bool.true_and, Bool.eq_iff_iff, beq_iff_eq, beq_iff_eq]
    exact (h.name hk).reading_iff (h'.name (hkeyed ▸ hk)) hkey Text.lower mem_lower

/-! ## 4. Invocations -/

/-- The templates stand at the same place, and the one is what is seen of the other, with its
parameter text taken from `seen`. -/
structure Template.Alike (seen : Text) (t t' : Template) : Prop where
  span : t.span = t'.span
  paramsStart : t.paramsStart = t'.paramsStart
  name : Hides true t.name t'.name
  paramText : Hides true t.paramText t'.paramText
  params : List.Forall₂ Param.Alike t.params t'.params
  seen_eq : t'.paramText = seen.slice t.paramsStart (t.span.stop - 2)

/-- The two braces that balance a text are the last of it. -/
theorem getElem?_of_balancedLength? {t : Text} {n m : Nat} {inPair : Bool}
    (h : balancedLength? n inPair t = some m) : 2 ≤ m ∧ t[m - 2]? = some '}' := by
  induction t generalizing n m inPair with
  | nil => cases inPair <;> cases h
  | cons c r ih =>
    have later : ∀ {k : Nat} {b : Bool}, (balancedLength? k b r).map (· + 1) = some m →
        2 ≤ m ∧ (c :: r)[m - 2]? = some '}' := by
      intro k b hk
      obtain ⟨j, hj, rfl⟩ := Option.map_eq_some_iff.mp hk
      obtain ⟨hle, hget⟩ := ih hj
      refine ⟨by omega, ?_⟩
      rw [show j + 1 - 2 = (j - 2) + 1 by omega, List.getElem?_cons_succ]
      exact hget
    cases inPair with
    | true => exact later h
    | false =>
      rw [balancedLength?] at h
      split at h
      · exact later h
      · split at h
        · rename_i hclose
          split at h
          · obtain rfl := Option.some.inj h
            simp only [Bool.and_eq_true, decide_eq_true_eq] at hclose
            exact ⟨Nat.le_refl _, by simp [hclose.1]⟩
          · exact later h
        · exact later h

/-- What stands around the name and the parameters of an invocation that begins a text. -/
theorem signs_of_invocationRule {wanted : Text → Bool} {t : Text} {n : Nat} {h : Heading}
    (hr : invocationRule wanted t = .found n h) :
    t[1]? = some '{' ∧ t[2 + h.nameLength]? = some (if h.hasBar then '|' else '}') ∧
      t[n - 2]? = some '}' := by
  unfold invocationRule at hr
  split at hr
  case isFalse => cases hr
  split at hr
  case h_1 => cases hr
  rename_i h' hh
  split at hr
  case isFalse => cases hr
  split at hr
  case h_2 => cases hr
  rename_i m hm
  obtain ⟨rfl, rfl⟩ : m = n ∧ h' = h := by simpa using hr
  refine ⟨?_, ?_, (getElem?_of_balancedLength? hm).2⟩ <;>
    obtain ⟨name, r, rfl, hlen, -, hbar, hnobar⟩ := exists_of_heading? hh
  · rfl
  · have hget : ('{' :: '{' :: (name ++ r))[2 + h'.nameLength]? = r.head? := by
      rw [← hlen, Nat.add_comm, List.getElem?_cons_succ, List.getElem?_cons_succ,
        List.getElem?_append_right (Nat.le_refl _), Nat.sub_self, List.head?_eq_getElem?]
    rw [hget]
    split
    · rename_i hb
      exact hbar hb
    · rename_i hb
      obtain ⟨r', rfl⟩ := hnobar (Bool.eq_false_iff.mpr hb)
      rfl

/-- A page and what is seen of it have the same invocations. -/
theorem Hides.templatesWhere {p : Page} {b : Bool} (h : Hides b p.raw p.seen)
    (wanted : Text → Bool) :
    List.Forall₂ (Template.Alike p.seen) (p.templatesWhere wanted)
      ((Page.bare p.seen).templatesWhere wanted) := by
  unfold Page.templatesWhere
  rw [List.forall₂_map_left_iff, List.forall₂_map_right_iff]
  change List.Forall₂ _ (scan (fun _ => invocationRule wanted) p.seen)
    (scan (fun _ => invocationRule wanted) p.seen)
  rw [List.forall₂_same]
  intro f hf
  obtain ⟨i, n, _, hi, hr, hs⟩ := exists_of_mem_scan hf
  obtain ⟨-, -, hlo, hhi, -⟩ := invocationRule_found hr
  obtain ⟨hbrace, hbar, hclose⟩ := signs_of_invocationRule hr
  rw [List.getElem?_drop] at hbrace hbar hclose
  have hstart : f.span.start = i := by rw [hs, Span.start_ofLength, Nat.zero_add]
  have hstop : f.span.stop = i + n := by rw [hs, Span.stop_ofLength, Nat.zero_add]
  have hname : Hides true (p.raw.slice (f.span.start + 2) (f.span.start + 2 + f.value.nameLength))
      (p.seen.slice (f.span.start + 2) (f.span.start + 2 + f.value.nameLength)) := by
    rw [hstart]
    refine h.slice (c := '{') (i := i + 1) (d := if f.value.hasBar then '|' else '}')
      (by decide) ?_ hbrace ?_ (by omega)
    · split <;> decide
    · rw [Nat.add_assoc]
      exact hbar
  have hinner : Hides true
      (p.raw.slice (p.invocation f).paramsStart (f.span.stop - 2))
      (p.seen.slice (p.invocation f).paramsStart (f.span.stop - 2)) := by
    unfold Heading.paramsOffset at hlo hhi
    simp only [Page.invocation]
    cases hb : f.value.hasBar with
    | false =>
      rw [if_neg (by simp), Text.slice_self, Text.slice_self]
      exact .nil
    | true =>
      rw [hb, if_pos rfl] at hhi hbar
      rw [if_pos rfl, hstart, hstop]
      refine h.slice (c := '|') (d := '}') (by decide) (by decide) ?_ ?_ (by omega)
      · rw [Nat.add_assoc]
        exact hbar
      · rw [show i + n - 2 = i + (n - 2) by omega]
        exact hclose
  exact ⟨rfl, rfl, hname.trim, hinner,
    Hides.params (p := p.slice (p.invocation f).paramsStart (f.span.stop - 2)) hinner, rfl⟩

end CiteMarkup
