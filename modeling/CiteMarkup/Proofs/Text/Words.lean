import CiteMarkup.Proofs.Text.Slice
/-!
# The words of a text

A text is cut into words at its blanks, and everything about words follows from what one blank does
(`words_append_blank`).  So blanks around a text do not matter to its words (`words_trim`), and what
is no blank is in the words, in order (`flatten_words`).
-/

namespace CiteMarkup
namespace Text

variable {t u v word : Text} {c : Char}

/-! ## 1. Blanks between words -/

/-- A blank ends the word in front of it. -/
theorem wordsFrom_append_blank (hc : isBlank c = true) (word u v : Text) :
    wordsFrom word (u ++ c :: v) = wordsFrom word u ++ words v := by
  induction u generalizing word with
  | nil =>
    simp only [List.nil_append, wordsFrom, if_pos hc]
    split <;> rfl
  | cons d u ih =>
    rw [List.cons_append, wordsFrom, wordsFrom]
    split
    · split
      · exact ih []
      · rw [ih [], List.cons_append]
    · exact ih (d :: word)

/-- **A text is cut into words at a blank.** -/
theorem words_append_blank (hc : isBlank c = true) (u v : Text) :
    words (u ++ c :: v) = words u ++ words v :=
  wordsFrom_append_blank hc [] u v

theorem words_cons_blank (hc : isBlank c = true) (t : Text) : words (c :: t) = words t :=
  words_append_blank hc [] t

/-- Of several blanks in a row all but one can go, whatever stands in front of them. -/
theorem wordsFrom_cons_cons_blank {d : Char} (hc : isBlank c = true) (hd : isBlank d = true)
    (word t : Text) : wordsFrom word (c :: d :: t) = wordsFrom word (d :: t) := by
  rw [← List.nil_append (c :: d :: t), wordsFrom_append_blank hc, words_cons_blank hd,
    ← List.nil_append (d :: t), wordsFrom_append_blank hd]

/-! ## 2. Blanks around a text -/

theorem words_append_of_blanks (hu : ∀ c ∈ u, isBlank c = true) (t : Text) :
    words (u ++ t) = words t := by
  induction u with
  | nil => rfl
  | cons c u ih =>
    rw [List.cons_append, words_cons_blank (hu c List.mem_cons_self)]
    exact ih fun d hd => hu d (List.mem_cons_of_mem _ hd)

theorem words_of_append_blanks (hv : ∀ c ∈ v, isBlank c = true) (t : Text) :
    words (t ++ v) = words t := by
  cases v with
  | nil => rw [List.append_nil]
  | cons c v =>
    have hnone : words v = [] := by
      have h := words_append_of_blanks (fun d hd => hv d (List.mem_cons_of_mem _ hd)) []
      rwa [List.append_nil] at h
    rw [words_append_blank (hv c List.mem_cons_self), hnone, List.append_nil]

/-- **Trimming keeps the words.** -/
theorem words_trim (t : Text) : t.trim.words = t.words := by
  obtain ⟨front, back, hparts, -, hfront, hback⟩ := exists_trim t
  calc t.trim.words
      = words (front ++ t.trim ++ back) := by
        rw [words_of_append_blanks hback, words_append_of_blanks hfront]
    _ = t.words := by rw [← hparts]

/-! ## 3. What is no blank -/

theorem flatten_wordsFrom (word t : Text) :
    (wordsFrom word t).flatten = word.reverse ++ t.filter (!isBlank ·) := by
  induction t generalizing word with
  | nil => cases word <;> simp [wordsFrom]
  | cons c r ih =>
    rw [wordsFrom]
    split
    · rename_i hc
      cases word <;> simp [ih, hc]
    · rename_i hc
      simp [ih, hc]

/-- **The words hold what is no blank**, in order. -/
theorem flatten_words (t : Text) : t.words.flatten = t.filter (!isBlank ·) :=
  flatten_wordsFrom [] t

end Text
end CiteMarkup
