import CiteMarkup.Proofs.Page.Edges
/-!
# Where the veil lies

A page is read for protected parts from left to right (`Protected.parts`).  The veil lies over these
and over nothing else (`getElem?_veil_eq`), so every offset keeps its character or hides it, and
line ends stay where they are.

What the readers see is not free of everything that begins a protected part: when a comment is
hidden, an element can come to light that was none with the comment in its tag.  But what is seen
without the veil in it is written so, and nothing protected begins with it (`exists_of_infix_veil`).
So no opening of a comment is left, closed or not, and no `nowiki` without content
(`veil_over_protected_parts`).
-/

namespace CiteMarkup

variable {t w : Text}

/-! ## 1. Protected parts, from left to right -/

namespace Protected

/-- A protected part begins here, or nothing does. -/
def rule (t : Text) : Verdict Unit :=
  match length? t with
  | some n => .found n ()
  | none => .pass

/-- The protected parts of a text.  Each is looked for behind the end of the one before. -/
def parts (t : Text) : List Span := (scan (fun _ => rule) t).map (·.span)

/-- A character of a protected part stands at the offset. -/
def covers (t : Text) (i : Nat) : Bool := (parts t).any (·.contains i)

/-- A protected part has at least one character. -/
theorem length?_pos {n : Nat} (h : length? t = some n) : 0 < n := by
  have hne : t ≠ [] := by
    rintro rfl
    cases h
  have hpos := List.length_pos_iff.mpr hne
  rcases bracket_of_length? h with rfl | ⟨rest, hbehind, rfl⟩
  · exact hpos
  · have hle := hbehind.length_le
    rw [List.length_cons] at hle
    omega

end Protected

/-! ## 2. Under the veil -/

/-- Nothing that is found from a place on stands in front of it. -/
theorem any_scanFrom_of_lt {α : Type} {rule : Option Char → Text → Verdict α} {offset skip i : Nat}
    {before : Option Char} (h : i < offset) (t : Text) :
    ((scanFrom rule offset skip before t).any fun f => f.span.contains i) = false := by
  rw [List.any_eq_false]
  intro f hf
  obtain ⟨k, n, _, _, _, _, hspan⟩ := exists_of_mem_scanFrom hf
  rw [hspan, Span.contains_iff, Span.start_ofLength]
  omega

/-- What is hidden first is hidden, and behind it what the reading finds. -/
theorem getElem?_veilFrom_eq (t : Text) (hidden offset i : Nat) (before : Option Char) :
    (veilFrom hidden t)[i]? = (t[i]?).map fun c =>
      if i < hidden || (scanFrom (fun _ => Protected.rule) offset hidden before t).any
        fun f => f.span.contains (offset + i) then veiled c else c := by
  induction t generalizing hidden offset before i with
  | nil => cases hidden <;> simp [veilFrom]
  | cons c r ih =>
    have hplace : ∀ j, offset + 1 + j = offset + (j + 1) := fun j => by omega
    cases hidden with
    | succ n =>
      rw [veilFrom, scanFrom]
      cases i with
      | zero => simp
      | succ i =>
        rw [List.getElem?_cons_succ, List.getElem?_cons_succ, ih n (offset + 1) i (some c), hplace]
        simp
    | zero =>
      rw [veilFrom, scanFrom, Protected.rule]
      cases hp : Protected.length? (c :: r) with
      | none =>
        cases i with
        | zero => simp [any_scanFrom_of_lt]
        | succ i =>
          simp only [List.getElem?_cons_succ]
          rw [ih 0 (offset + 1) i (some c), hplace]
          simp
      | some n =>
        have hpos := Protected.length?_pos hp
        have hpart : ∀ j, (Span.ofLength offset n).contains (offset + j) = decide (j < n) := by
          intro j
          rw [Bool.eq_iff_iff, Span.contains_iff, decide_eq_true_iff, Span.start_ofLength,
            Span.stop_ofLength]
          omega
        cases i with
        | zero =>
          simp only [List.any_cons, hpart, hpos]
          simp
        | succ i =>
          have hnext : (i + 1 < n) = (i < n - 1) := propext (by omega)
          simp only [List.getElem?_cons_succ, List.any_cons, hpart, hnext]
          rw [ih (n - 1) (offset + 1) i (some c), hplace]
          simp

/-- **The veil lies over the protected parts**, and over nothing else. -/
theorem getElem?_veil_eq (t : Text) (i : Nat) :
    t.veil[i]? = (t[i]?).map fun c => if Protected.covers t i then veiled c else c := by
  have hwhole := getElem?_veilFrom_eq t 0 0 i none
  rw [Text.veil, hwhole]
  simp [Protected.covers, Protected.parts, scan, Function.comp_def]

/-- At each place the readers see what is written, or the veil if that is no line end. -/
theorem getElem?_veil_cases (t : Text) (i : Nat) :
    t.veil[i]? = t[i]? ∨ t[i]? ≠ some '\n' ∧ t.veil[i]? = some veil := by
  rw [getElem?_veil_eq]
  cases t[i]? with
  | none => exact .inl rfl
  | some c =>
    rw [Option.map_some]
    split
    · by_cases hc : c = '\n'
      · exact .inl (by rw [veiled, if_pos hc])
      · exact .inr ⟨fun heq => hc (Option.some.inj heq), by rw [veiled, if_neg hc]⟩
    · exact .inl rfl

/-- Line ends are seen where they are written, and nowhere else. -/
theorem getElem?_veil_lineEnd (t : Text) (i : Nat) :
    t.veil[i]? = some '\n' ↔ t[i]? = some '\n' := by
  rcases getElem?_veil_cases t i with hsame | ⟨hline, hveil⟩
  · rw [hsame]
  · rw [hveil]
    exact iff_of_false (by decide) hline

/-! ## 3. What is seen without the veil -/

/-- What is seen at the beginning of a text and has no veil in it is written there, and nothing
protected begins with it. -/
theorem prefix_of_prefix_veil (h : w <+: t.veil) (hw : veil ∉ w) (hne : w ≠ []) :
    w <+: t ∧ Protected.length? t = none := by
  induction t generalizing w with
  | nil => exact absurd (List.prefix_nil.mp h) hne
  | cons c r ih =>
    obtain ⟨d, v, rfl⟩ := List.exists_cons_of_ne_nil hne
    obtain ⟨hd, hv⟩ := not_or.mp (List.mem_cons.not.mp hw)
    cases hp : Protected.length? (c :: r) with
    | some n =>
      -- a protected part begins with a bracket, and that is not seen
      have hbracket : c = '<' := by
        by_contra hc
        rw [length?_eq_none hc] at hp
        cases hp
      rw [Text.veil, veilFrom, hp, hbracket] at h
      exact absurd (List.cons_prefix_cons.mp h).1.symm hd
    | none =>
      rw [Text.veil, veilFrom, hp] at h
      obtain ⟨rfl, hrest⟩ := List.cons_prefix_cons.mp h
      refine ⟨List.cons_prefix_cons.mpr ⟨rfl, ?_⟩, rfl⟩
      by_cases hnil : v = []
      · exact hnil ▸ List.nil_prefix
      · exact (ih hrest hv hnil).1

/-- **What is seen without the veil in it is written so, and nothing protected begins with it.** -/
theorem exists_of_infix_veil {c : Char} (h : c :: w <:+: t.veil) (hc : IsSeen c) (hw : veil ∉ w) :
    ∃ back, c :: w <+: back ∧ Protected.length? back = none := by
  obtain ⟨front, behind, hveil⟩ := h
  have hlength : front.length ≤ t.length := by
    rw [← length_veil t, ← hveil]
    simp
  obtain ⟨front', n, hcut, hsame, -, -⟩ := exists_veilFrom_append
    (u := t.take front.length) (w := t.drop front.length) (.zero _)
  rw [List.length_take, Nat.min_eq_left hlength] at hsame
  rw [List.take_append_drop, ← Text.veil, ← hveil, List.append_assoc] at hcut
  obtain ⟨-, hback⟩ := List.append_inj hcut hsame.symm
  cases n with
  | zero =>
    refine ⟨t.drop front.length, prefix_of_prefix_veil ⟨behind, hback⟩ ?_ (List.cons_ne_nil c w)⟩
    exact not_or.mpr ⟨Ne.symm hc.1, hw⟩ ∘ List.mem_cons.mp
  | succ n =>
    refine absurd hc (not_isSeen_of_head? (n := n) (w := t.drop front.length) ?_)
    rw [← hback]
    rfl

/-! ## 4. Comments and `nowiki` -/

section Openings

variable {tag : Text}

/-- A tag `nowiki` without content: its name in any case, and any blanks around the slash. -/
def IsEmptyNowiki (tag : Text) : Prop :=
  ∃ name front back : Text, tag = name ++ (front ++ '/' :: (back ++ ['>'])) ∧
    keyword? "<nowiki".toList name = some [] ∧ (∀ c ∈ front, isBlank c = true) ∧
      ∀ c ∈ back, isBlank c = true

/-- Nothing protected begins where no comment and no tag `nowiki` without content begin. -/
theorem Protected.not_of_length?_eq_none (h : length? t = none) :
    comment? t = none ∧ emptyTag? t = none := by
  simp only [length?, Option.orElse_eq_orElse, Option.orElse_eq_or, Option.or_eq_none_iff] at h
  exact h.1

/-- A protected part begins with the opening of a comment. -/
theorem Protected.length?_of_comment (h : "<!--".toList <+: t) : length? t ≠ none := by
  intro hnone
  obtain ⟨rest, rfl⟩ := h
  have hcomment := (not_of_length?_eq_none hnone).1
  rw [comment?, after?_append] at hcomment
  cases hcomment

theorem slashEnd?_append {front back : Text} (hfront : ∀ c ∈ front, isBlank c = true)
    (hback : ∀ c ∈ back, isBlank c = true) (rest : Text) :
    Protected.slashEnd? (front ++ '/' :: (back ++ '>' :: rest)) = some rest := by
  have hslash : (front ++ '/' :: (back ++ '>' :: rest)).dropWhile isBlank =
      '/' :: (back ++ '>' :: rest) := by
    rw [List.dropWhile_append_of_pos hfront]
    rfl
  have hbracket : (back ++ '>' :: rest).dropWhile isBlank = '>' :: rest := by
    rw [List.dropWhile_append_of_pos hback]
    rfl
  simp only [Protected.slashEnd?, hslash, hbracket]
  rfl

/-- A protected part begins with a tag `nowiki` without content. -/
theorem Protected.length?_of_nowiki (htag : IsEmptyNowiki tag) (h : tag <+: t) :
    length? t ≠ none := by
  intro hnone
  obtain ⟨rest, rfl⟩ := h
  obtain ⟨name, front, back, rfl, hname, hfront, hback⟩ := htag
  have hempty := (not_of_length?_eq_none hnone).2
  have hlength : ("<nowiki".toList : Text).length ≤ name.length := by
    rw [length_of_keyword? hname]
    exact Nat.le_add_right _ _
  have hword := keyword?_append hlength (front ++ '/' :: (back ++ '>' :: rest))
  rw [hname, Option.map_some, List.nil_append] at hword
  have hshape : name ++ (front ++ '/' :: (back ++ ['>'])) ++ rest =
      name ++ (front ++ '/' :: (back ++ '>' :: rest)) := by simp
  simp only [hshape, emptyTag?, hword, Option.bind_eq_bind, Option.bind_some,
    slashEnd?_append hfront hback] at hempty
  cases hempty

/-- There is no veil in such a tag, and it begins with a bracket. -/
theorem IsEmptyNowiki.eq_cons (htag : IsEmptyNowiki tag) : ∃ r, tag = '<' :: r ∧ veil ∉ r := by
  obtain ⟨name, front, back, rfl, hname, hfront, hback⟩ := htag
  have hblank : ∀ u : Text, (∀ c ∈ u, isBlank c = true) → veil ∉ u := by
    intro u hu hmem
    cases (hu veil hmem).symm.trans Hides.isBlank_veil
  have hletter : veil ∉ name := by
    intro hmem
    obtain ⟨l, hl, hveil⟩ := exists_isLetter_of_keyword? hname hmem
    have hnone : ("<nowiki".toList.any fun l => isLetter l veil) = false := by decide
    exact List.any_eq_false.mp hnone l hl hveil
  cases name with
  | nil => cases hname
  | cons c name =>
    obtain rfl : c = '<' := Option.some.inj (head_of_keyword? hname)
    refine ⟨_, rfl, ?_⟩
    have hc := (not_or.mp (List.mem_cons.not.mp hletter)).2
    have hslash : veil ≠ '/' := by decide
    have hbracket : veil ≠ '>' := by decide
    simp [hc, hblank front hfront, hblank back hback, hslash, hbracket]

end Openings

/-! ## 5. The veil as a whole -/

/-- **The veil keeps every place and lies over the protected parts.**  At each offset the readers
see what is written, or the veil if that is no line end; line ends are seen where they are written
and nowhere else.  No comment is opened in what they see, and no `nowiki` without content stands in
it.  Without a bracket nothing is hidden. -/
theorem veil_over_protected_parts (t : Text) :
    t.veil.length = t.length ∧
      (∀ i : Nat, t.veil[i]? = (t[i]?).map fun c => if Protected.covers t i then veiled c else c) ∧
      (∀ i : Nat, t.veil[i]? = t[i]? ∨ t[i]? ≠ some '\n' ∧ t.veil[i]? = some veil) ∧
      (∀ i : Nat, t.veil[i]? = some '\n' ↔ t[i]? = some '\n') ∧
      ¬ "<!--".toList <:+: t.veil ∧
      (∀ tag, IsEmptyNowiki tag → ¬ tag <:+: t.veil) ∧
      ('<' ∉ t → t.veil = t) := by
  refine ⟨length_veil t, getElem?_veil_eq t, getElem?_veil_cases t, getElem?_veil_lineEnd t,
    fun h => ?_, fun tag htag h => ?_, veil_of_untagged⟩
  · obtain ⟨back, hprefix, hnone⟩ :=
      exists_of_infix_veil (c := '<') (w := "!--".toList) h (by decide)
      (by decide)
    exact Protected.length?_of_comment hprefix hnone
  · obtain ⟨r, rfl, hveil⟩ := htag.eq_cons
    obtain ⟨back, hprefix, hnone⟩ := exists_of_infix_veil h (by decide) hveil
    exact Protected.length?_of_nowiki htag hprefix hnone

/-- A tag over two lines, and a comment that is not closed. -/
theorem veil_over_protected_parts_lines :
    let t : Text := "a<Nowiki\n/ >b<!--\nc".toList
    Protected.parts t = [⟨1, 12, by decide⟩, ⟨13, 19, by decide⟩] ∧
      ¬ "<!--".toList <:+: t.veil ∧ ¬ "<Nowiki\n/ >".toList <:+: t.veil ∧
      t.veil[8]? = some '\n' ∧ Text.veil "a\nb".toList = "a\nb".toList := by
  intro t
  obtain ⟨-, -, -, hlines, hcomment, htag, -⟩ := veil_over_protected_parts t
  have hempty : IsEmptyNowiki "<Nowiki\n/ >".toList :=
    ⟨"<Nowiki".toList, "\n".toList, " ".toList, rfl, rfl, List.all_eq_true.mp rfl,
      List.all_eq_true.mp rfl⟩
  refine ⟨by decide, hcomment, htag _ hempty, (hlines 8).mpr (by decide), ?_⟩
  exact (veil_over_protected_parts "a\nb".toList).2.2.2.2.2.2 (by decide)

/-- Veiled twice is more than veiled once: the first bracket, which is part of a comment, ends the
tag with a slash, but once that is hidden the next one makes it the opening of an element. -/
example : let t : Text := "<pre <!--/>--> >x</pre>".toList
    t.veil.veil ≠ t.veil := by
  decide

end CiteMarkup
