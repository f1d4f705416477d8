import CiteMarkup.Proofs.Text.Slice
import CiteMarkup.Proofs.Text.Value
import CiteMarkup.Proofs.Text.Words
import CiteMarkup.Tag.Body
import Mathlib.Data.List.Chain
/-!
# Tidied bodies

In a tidied body no space or tab stands in front of a line end, no three line ends stand in a row,
and no blank stands around it.  Whatever has this form is left as it is, so tidying twice is
tidying once (`tidy_tidy`).  What is taken away has another blank in front of it or behind it, so
the words of the body stay as they are (`words_tidy`).
-/

namespace CiteMarkup

variable {c : Char} {t u : Text} {n : Nat}

/-! ## 1. Ends of lines -/

/-- No space or tab stands in front of a line end. -/
def HasCleanLines (t : Text) : Prop := t.IsChain fun a b => ¬ (isGap a = true ∧ b = '\n')

theorem leadsToLineEnd_eq_false (h : HasCleanLines (c :: t)) (hc : isGap c = true) :
    leadsToLineEnd t = false := by
  induction t generalizing c with
  | nil => rfl
  | cons d r ih =>
    obtain ⟨hcd, hr⟩ := List.isChain_cons_cons.mp h
    by_cases hd : isGap d = true
    · have hrest := ih hr hd
      rwa [leadsToLineEnd, List.dropWhile_cons_of_pos hd]
    · rw [leadsToLineEnd, List.dropWhile_cons_of_neg hd]
      simpa using fun heq => hcd ⟨hc, heq⟩

/-- Clean lines stay as they are. -/
theorem cleanLines_of_hasCleanLines (h : HasCleanLines t) : cleanLines t = t := by
  induction t with
  | nil => rfl
  | cons c r ih =>
    have hkeep : (isGap c && leadsToLineEnd r) = false := by
      cases hc : isGap c with
      | false => rfl
      | true => rw [leadsToLineEnd_eq_false h hc, Bool.and_false]
    rw [cleanLines, hkeep, ih h.tail]
    rfl

/-- Where a line end comes first after cleaning, only spaces and tabs have been in front of it. -/
theorem leadsToLineEnd_of_head? (h : (cleanLines t).head? = some '\n') :
    leadsToLineEnd t = true := by
  induction t with
  | nil => cases h
  | cons c r ih =>
    rw [cleanLines] at h
    split at h
    · rename_i hgap
      obtain ⟨hc, -⟩ := Bool.and_eq_true_iff.mp hgap
      rw [leadsToLineEnd, List.dropWhile_cons_of_pos hc]
      exact ih h
    · obtain rfl : c = '\n' := Option.some.inj h
      rfl

theorem hasCleanLines_cons (h : HasCleanLines t)
    (hc : isGap c = true → t.head? ≠ some '\n') : HasCleanLines (c :: t) := by
  cases t with
  | nil => exact .singleton _
  | cons d r =>
    refine List.isChain_cons_cons.mpr ⟨?_, h⟩
    rintro ⟨hgap, rfl⟩
    exact hc hgap rfl

theorem hasCleanLines_cleanLines (t : Text) : HasCleanLines (cleanLines t) := by
  induction t with
  | nil => exact .nil
  | cons c r ih =>
    rw [cleanLines]
    split
    · exact ih
    · rename_i hgap
      refine hasCleanLines_cons ih fun hc hhead => hgap ?_
      rw [hc, leadsToLineEnd_of_head? hhead]
      rfl

/-! ## 2. Line ends in a row -/

/-- Line ends stand at most two in a row, if `n` of them have come before. -/
def FitsLineEnds : Nat → Text → Prop
  | _, [] => True
  | n, c :: r => if c = '\n' then n < 2 ∧ FitsLineEnds (n + 1) r else FitsLineEnds 0 r

theorem limitLineEnds_of_fits (h : FitsLineEnds n t) : limitLineEnds n t = t := by
  induction t generalizing n with
  | nil => rfl
  | cons c r ih =>
    rw [FitsLineEnds] at h
    rw [limitLineEnds]
    split at h
    · rename_i hc
      rw [if_pos hc, if_pos h.1, ih h.2]
    · rename_i hc
      rw [if_neg hc, ih h]

theorem fits_limitLineEnds (n : Nat) (t : Text) : FitsLineEnds n (limitLineEnds n t) := by
  induction t generalizing n with
  | nil => trivial
  | cons c r ih =>
    rw [limitLineEnds]
    split
    · rename_i hc
      split
      · rename_i hn
        rw [FitsLineEnds, if_pos hc]
        exact ⟨hn, ih (n + 1)⟩
      · exact ih n
    · rename_i hc
      rw [FitsLineEnds, if_neg hc]
      exact ih 0

theorem FitsLineEnds.mono {m : Nat} (h : FitsLineEnds n t) (hm : m ≤ n) : FitsLineEnds m t := by
  induction t generalizing m n with
  | nil => trivial
  | cons c r ih =>
    rw [FitsLineEnds] at h ⊢
    split
    · rename_i hc
      rw [if_pos hc] at h
      exact ⟨by omega, ih h.2 (by omega)⟩
    · rename_i hc
      rwa [if_neg hc] at h

theorem FitsLineEnds.tail (h : FitsLineEnds n (c :: t)) : FitsLineEnds 0 t := by
  rw [FitsLineEnds] at h
  split at h
  · exact h.2.mono (Nat.zero_le _)
  · exact h

theorem FitsLineEnds.of_append (h : FitsLineEnds n (t ++ u)) :
    FitsLineEnds n t ∧ FitsLineEnds 0 u := by
  induction t generalizing n with
  | nil => exact ⟨trivial, h.mono (Nat.zero_le _)⟩
  | cons c r ih =>
    refine ⟨?_, (ih (List.cons_append ▸ h).tail).2⟩
    rw [List.cons_append, FitsLineEnds] at h
    rw [FitsLineEnds]
    split
    · rename_i hc
      rw [if_pos hc] at h
      exact ⟨h.1, (ih h.2).1⟩
    · rename_i hc
      rw [if_neg hc] at h
      exact (ih h).1

/-- A line end that comes first has come first before too many were dropped. -/
theorem head?_limitLineEnds (h : (limitLineEnds n t).head? = some '\n') :
    t.head? = some '\n' := by
  cases t with
  | nil => cases h
  | cons c r =>
    rw [limitLineEnds] at h
    split at h
    · rename_i hc
      rw [hc]
      rfl
    · exact h

/-- Clean lines stay clean if line ends are dropped. -/
theorem HasCleanLines.limitLineEnds (h : HasCleanLines t) (n : Nat) :
    HasCleanLines (limitLineEnds n t) := by
  induction t generalizing n with
  | nil => exact .nil
  | cons c r ih =>
    have hnext : ∀ m, isGap c = true → (CiteMarkup.limitLineEnds m r).head? ≠ some '\n' := by
      intro m hc hhead
      cases r with
      | nil => cases hhead
      | cons d r =>
        have hd : d = '\n' := Option.some.inj (head?_limitLineEnds hhead)
        exact (List.isChain_cons_cons.mp h).1 ⟨hc, hd⟩
    rw [CiteMarkup.limitLineEnds]
    split
    · split
      · exact hasCleanLines_cons (ih h.tail _) (hnext _)
      · exact ih h.tail _
    · exact hasCleanLines_cons (ih h.tail _) (hnext _)

theorem FitsLineEnds.append (hu : FitsLineEnds n t) (hv : FitsLineEnds 0 u)
    (h : u.head? ≠ some '\n') : FitsLineEnds n (t ++ u) := by
  induction t generalizing n with
  | nil =>
    cases u with
    | nil => trivial
    | cons d r =>
      have hd : d ≠ '\n' := fun hd => h (by rw [hd]; rfl)
      rw [FitsLineEnds, if_neg hd] at hv
      rwa [List.nil_append, FitsLineEnds, if_neg hd]
  | cons c r ih =>
    rw [FitsLineEnds] at hu
    rw [List.cons_append, FitsLineEnds]
    split
    · rename_i hc
      rw [if_pos hc] at hu
      exact ⟨hu.1, ih hu.2⟩
    · rename_i hc
      rw [if_neg hc] at hu
      exact ih hu

/-! ## 3. Tidy lines -/

/-- The lines of a tidied text. -/
structure HasTidyLines (t : Text) : Prop where
  clean : HasCleanLines t
  fits : FitsLineEnds 0 t

namespace HasTidyLines

/-- A part of a text has tidy lines if the text has. -/
theorem of_infix (h : HasTidyLines t) (hu : u <:+: t) : HasTidyLines u := by
  obtain ⟨front, back, rfl⟩ := hu
  have hclean : HasCleanLines u := by
    apply List.IsChain.infix (h.clean)
    exact ⟨front, back, rfl⟩
  refine ⟨hclean, ?_⟩
  have hfits := h.fits
  rw [List.append_assoc] at hfits
  exact hfits.of_append.2.of_append.1

/-- Texts with tidy lines can be put together in front of what is no line end. -/
theorem append (ht : HasTidyLines t) (hu : HasTidyLines u) (h : u.head? ≠ some '\n') :
    HasTidyLines (t ++ u) := by
  refine ⟨List.isChain_append.mpr ⟨ht.clean, hu.clean, ?_⟩, ht.fits.append hu.fits h⟩
  rintro a - b hb ⟨-, rfl⟩
  exact h hb

/-- They can be put together with a character between that is neither a line end nor a gap. -/
theorem append_cons (ht : HasTidyLines t) (hu : HasTidyLines u) (hc : c ≠ '\n')
    (hgap : isGap c = false) : HasTidyLines (t ++ c :: u) := by
  refine ht.append ⟨hasCleanLines_cons hu.clean (by simp [hgap]), ?_⟩ ?_
  · rw [FitsLineEnds, if_neg hc]
    exact hu.fits
  · simpa using hc

/-- They can be put together behind such a character. -/
theorem append_of_last (ht : HasTidyLines t) (hu : HasTidyLines u) (hlast : t.getLast? = some c)
    (hc : c ≠ '\n') (hgap : isGap c = false) : HasTidyLines (t ++ u) := by
  obtain ⟨r, rfl⟩ := List.getLast?_eq_some_iff.mp hlast
  rw [List.append_assoc]
  exact (ht.of_infix ⟨[], [c], rfl⟩).append_cons hu hc hgap

end HasTidyLines

/-! ## 4. Tidying -/

theorem hasTidyLines_tidy (t : Text) : HasTidyLines (tidy t) := by
  obtain ⟨front, back, hparts, -⟩ := Text.exists_trim (limitLineEnds 0 (cleanLines t))
  have hlines : HasTidyLines (limitLineEnds 0 (cleanLines t)) :=
    ⟨(hasCleanLines_cleanLines t).limitLineEnds 0, fits_limitLineEnds 0 _⟩
  -- what is left after trimming is a part of it
  exact hlines.of_infix ⟨front, back, hparts.symm⟩

/-- Tidying takes characters away only. -/
theorem tidy_sublist (t : Text) : (tidy t).Sublist t := by
  have hclean : (cleanLines t).Sublist t := by
    induction t with
    | nil => exact .slnil
    | cons c r ih =>
      rw [cleanLines]
      split
      · exact ih.cons c
      · exact ih.cons_cons c
  have hlimit : ∀ (u : Text) (n : Nat), (limitLineEnds n u).Sublist u := by
    intro u
    induction u with
    | nil => exact fun _ => .slnil
    | cons c r ih =>
      intro n
      rw [limitLineEnds]
      split
      · split
        · exact (ih _).cons_cons c
        · exact (ih _).cons c
      · exact (ih _).cons_cons c
  obtain ⟨front, back, hparts, -⟩ := Text.exists_trim (limitLineEnds 0 (cleanLines t))
  have htrim : (tidy t).Sublist (limitLineEnds 0 (cleanLines t)) :=
    List.IsInfix.sublist ⟨front, back, hparts.symm⟩
  exact htrim.trans ((hlimit _ 0).trans hclean)

/-- **A tidy text is left as it is.** -/
theorem tidy_of_hasTidyLines (h : HasTidyLines t) (ht : t.Trimmed) : tidy t = t := by
  rw [tidy, cleanLines_of_hasCleanLines h.clean, limitLineEnds_of_fits h.fits, ht.trim_eq]

/-- **Tidying twice is tidying once.** -/
theorem tidy_tidy (t : Text) : tidy (tidy t) = tidy t :=
  tidy_of_hasTidyLines (hasTidyLines_tidy t) (Text.trimmed_trim _)

/-! ## 5. Words -/

/-- What leads to the end of a line begins with a blank. -/
theorem exists_of_leadsToLineEnd (h : leadsToLineEnd t = true) :
    ∃ d r, t = d :: r ∧ isBlank d = true := by
  cases t with
  | nil => simp [leadsToLineEnd] at h
  | cons d r =>
    refine ⟨d, r, rfl, ?_⟩
    by_cases hgap : isGap d = true
    · rcases (by simpa [isGap] using hgap : d = ' ' ∨ d = '\t') with rfl | rfl <;> rfl
    · rw [leadsToLineEnd, List.dropWhile_cons_of_neg hgap] at h
      obtain rfl : d = '\n' := by simpa using h
      rfl

theorem isBlank_of_isGap (h : isGap c = true) : isBlank c = true := by
  rcases (by simpa [isGap] using h : c = ' ' ∨ c = '\t') with rfl | rfl <;> rfl

/-- What is taken away at the end of a line stands in front of another blank. -/
theorem wordsFrom_cleanLines (word t : Text) :
    Text.wordsFrom word (cleanLines t) = Text.wordsFrom word t := by
  induction t generalizing word with
  | nil => rfl
  | cons c r ih =>
    rw [cleanLines]
    split
    · rename_i hgap
      obtain ⟨hc, hend⟩ := Bool.and_eq_true_iff.mp hgap
      obtain ⟨d, r, rfl, hd⟩ := exists_of_leadsToLineEnd hend
      rw [ih, Text.wordsFrom_cons_cons_blank (isBlank_of_isGap hc) hd]
    · simp only [Text.wordsFrom, ih]

/-- Behind a line end no word has begun, so that another line end does not matter. -/
theorem wordsFrom_limitLineEnds {word : Text} (h : 0 < n → word = []) (t : Text) :
    Text.wordsFrom word (limitLineEnds n t) = Text.wordsFrom word t := by
  induction t generalizing n word with
  | nil => rfl
  | cons c r ih =>
    have hnext : ∀ m, Text.wordsFrom [] (limitLineEnds m r) = Text.wordsFrom [] r :=
      fun m => ih fun _ => rfl
    rw [limitLineEnds]
    split
    · rename_i hc
      have hblank : isBlank c = true := by rw [hc]; rfl
      split
      · simp only [Text.wordsFrom, if_pos hblank, hnext]
      · rename_i hn
        obtain rfl := h (by omega)
        simp only [Text.wordsFrom, if_pos hblank, hnext, List.isEmpty_nil, if_true]
    · have hword := @ih 0 (c :: word) fun h => absurd h (Nat.lt_irrefl 0)
      simp only [Text.wordsFrom, hnext, hword]

/-- **Tidying keeps the words.** -/
theorem words_tidy (b : Text) : (tidy b).words = b.words :=
  calc (tidy b).words
      = (limitLineEnds 0 (cleanLines b)).words := Text.words_trim _
    _ = (cleanLines b).words := wordsFrom_limitLineEnds (fun h => absurd h (Nat.lt_irrefl 0)) _
    _ = b.words := wordsFrom_cleanLines [] b

/-! ## 6. The form of a tidied text -/

/-- No space or tab stands in front of a line end, no three line ends stand in a row, and the text
neither begins nor ends with a blank. -/
structure IsTidy (t : Text) : Prop where
  gap : ∀ c, isGap c = true → ¬ [c, '\n'] <:+: t
  lineEnds : ¬ ['\n', '\n', '\n'] <:+: t
  trimmed : t.Trimmed

theorem hasCleanLines_iff : HasCleanLines t ↔ ∀ c, isGap c = true → ¬ [c, '\n'] <:+: t := by
  rw [HasCleanLines, List.isChain_iff_forall_rel_of_append_cons_cons]
  constructor
  · rintro h c hc ⟨front, back, rfl⟩
    exact h (List.append_assoc front [c, '\n'] back) ⟨hc, rfl⟩
  · rintro h a b front back rfl ⟨ha, rfl⟩
    exact h a ha ⟨front, back, by simp⟩

/-- Line ends that have come before count as if they stood in front of the text. -/
theorem fitsLineEnds_of_not_infix (hn : n ≤ 2)
    (h : ¬ ['\n', '\n', '\n'] <:+: List.replicate n '\n' ++ t) : FitsLineEnds n t := by
  induction t generalizing n with
  | nil => trivial
  | cons c r ih =>
    rw [FitsLineEnds]
    split
    · rename_i hc
      subst hc
      have hlt : n < 2 := by
        by_contra hno
        obtain rfl : n = 2 := by omega
        exact h ⟨[], r, rfl⟩
      refine ⟨hlt, ih hlt fun hthree => h ?_⟩
      rwa [List.replicate_succ', List.append_assoc] at hthree
    · refine ih (Nat.zero_le 2) fun hthree => h (hthree.trans ?_)
      exact ((List.suffix_cons c r).trans (List.suffix_append _ _)).isInfix

theorem fitsLineEnds_iff : FitsLineEnds 0 t ↔ ¬ ['\n', '\n', '\n'] <:+: t := by
  constructor
  · rintro h ⟨front, back, rfl⟩
    have hthree := (FitsLineEnds.of_append (FitsLineEnds.of_append h).1).2
    simp [FitsLineEnds] at hthree
  · exact fitsLineEnds_of_not_infix (n := 0) (Nat.zero_le 2)

theorem isTidy_iff : IsTidy t ↔ HasTidyLines t ∧ t.Trimmed := by
  constructor
  · intro h
    exact ⟨⟨hasCleanLines_iff.mpr h.gap, fitsLineEnds_iff.mpr h.lineEnds⟩, h.trimmed⟩
  · rintro ⟨⟨hclean, hfits⟩, htrimmed⟩
    exact ⟨hasCleanLines_iff.mp hclean, fitsLineEnds_iff.mp hfits, htrimmed⟩

/-- **Tidying brings a text into tidy form and keeps all that is seen.**  The result is tidy, and
what is tidy is left as it is, so that tidying again changes nothing.  The words are the same, and
with them all characters but the blanks, in their order. -/
theorem tidied_with_all_words (b : Text) :
    IsTidy (tidy b) ∧ (tidy b = b ↔ IsTidy b) ∧ tidy (tidy b) = tidy b ∧
      (tidy b).words = b.words ∧
      (tidy b).filter (!isBlank ·) = b.filter (!isBlank ·) := by
  have htidy : IsTidy (tidy b) := isTidy_iff.mpr ⟨hasTidyLines_tidy b, Text.trimmed_trim _⟩
  refine ⟨htidy, ⟨fun heq => heq ▸ htidy, fun h => ?_⟩, tidy_tidy b, words_tidy b, ?_⟩
  · obtain ⟨hlines, htrimmed⟩ := isTidy_iff.mp h
    exact tidy_of_hasTidyLines hlines htrimmed
  · rw [← Text.flatten_words, words_tidy, Text.flatten_words]

end CiteMarkup
