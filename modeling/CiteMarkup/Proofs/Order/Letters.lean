import CiteMarkup.Naming
import CiteMarkup.Proofs.Text.Read
import Mathlib.Data.List.Induction
import Mathlib.Data.List.Shortlex
import Mathlib.Data.Set.Function
/-!
# Counting in letters

`letters` goes through the words over the small letters, shorter words first and words of one length
as a dictionary has them.  Read as a number, a word has the digits 1 to 26 and no zero (`ordinal`).
So every word but the empty one stands for one number above zero and every such number is the number
of one word (`ordinal_letters`, `letters_of_ordinal`), and the number grows with the word
(`shortlex_iff_ordinal_lt`).  All three follow from what one letter more does to a word.
-/

namespace CiteMarkup

variable {c d : Char} {v w : Text} {n : Nat}

/-! ## 1. Letters as digits -/

/-- One of the letters from a to z. -/
def IsSmallLetter (c : Char) : Prop := 'a' ≤ c ∧ c ≤ 'z'

/-- The number of a small letter, from 0 to 25. -/
def letterNumber (c : Char) : Nat := c.toNat - 'a'.toNat

theorem isSmallLetter_iff : IsSmallLetter c ↔ 97 ≤ c.toNat ∧ c.toNat ≤ 122 := by
  simp only [IsSmallLetter, Char.le_def, UInt32.le_iff_toNat_le]
  rfl

theorem toNat_letterOf (h : n < 26) : (letterOf n).toNat = 97 + n :=
  toNat_ofNat (show 97 + n < 0xD800 by omega)

theorem isSmallLetter_letterOf (h : n < 26) : IsSmallLetter (letterOf n) := by
  rw [isSmallLetter_iff, toNat_letterOf h]
  omega

theorem letterNumber_letterOf (h : n < 26) : letterNumber (letterOf n) = n := by
  have ha : 'a'.toNat = 97 := rfl
  rw [letterNumber, toNat_letterOf h, ha]
  omega

theorem letterNumber_lt (hc : IsSmallLetter c) : letterNumber c < 26 := by
  have ha : 'a'.toNat = 97 := rfl
  rw [isSmallLetter_iff] at hc
  rw [letterNumber, ha]
  omega

/-- Small letters have the order of their numbers. -/
theorem lt_iff_letterNumber_lt (hc : IsSmallLetter c) (hd : IsSmallLetter d) :
    c < d ↔ letterNumber c < letterNumber d := by
  have ha : 'a'.toNat = 97 := rfl
  have hlt : c < d ↔ c.toNat < d.toNat := by
    rw [Char.lt_def, UInt32.lt_iff_toNat_lt]
    rfl
  rw [isSmallLetter_iff] at hc hd
  rw [hlt, letterNumber, letterNumber, ha]
  omega

theorem letterOf_letterNumber (hc : IsSmallLetter c) : letterOf (letterNumber c) = c := by
  apply Char.toNat_inj.mp
  rw [toNat_letterOf (letterNumber_lt hc)]
  have ha : 'a'.toNat = 97 := rfl
  rw [isSmallLetter_iff] at hc
  rw [letterNumber, ha]
  omega

/-! ## 2. Words as numbers -/

/-- A word: small letters, and at least one of them. -/
structure IsWord (w : Text) : Prop where
  nonempty : w ≠ []
  small : ∀ c ∈ w, IsSmallLetter c

/-- The place of a word in the list of all words, counted from 1; the empty text has the place 0.
The letters are the digits 1 to 26 of a number to the base 26. -/
def ordinal (w : Text) : Nat := w.foldl (fun n c => 26 * n + letterNumber c + 1) 0

/-- What one letter more does. -/
theorem ordinal_concat (w : Text) (c : Char) :
    ordinal (w ++ [c]) = 26 * ordinal w + letterNumber c + 1 := by
  rw [ordinal, List.foldl_append]
  rfl

theorem ordinal_singleton (c : Char) : ordinal [c] = letterNumber c + 1 := by
  simp [ordinal]

theorem eq_nil_of_ordinal (h : ordinal w = 0) : w = [] := by
  cases w using List.reverseRecOn with
  | nil => rfl
  | append_singleton w c =>
    rw [ordinal_concat] at h
    omega

/-- **The word that is counted to stands at its place.** -/
theorem ordinal_letters (n : Nat) : ordinal (letters n) = n + 1 := by
  induction n using letters.induct with
  | case1 n h =>
    rw [letters, if_pos h, ordinal_singleton, letterNumber_letterOf h]
  | case2 n h ih =>
    have hlast : n % 26 < 26 := Nat.mod_lt n (by omega)
    rw [letters, if_neg h, ordinal_concat, ih, letterNumber_letterOf hlast]
    omega

theorem isWord_letters (n : Nat) : IsWord (letters n) := by
  induction n using letters.induct with
  | case1 n h =>
    rw [letters, if_pos h]
    refine ⟨List.cons_ne_nil _ _, ?_⟩
    intro c hc
    rw [List.mem_singleton.mp hc]
    exact isSmallLetter_letterOf h
  | case2 n h ih =>
    have hlast : n % 26 < 26 := Nat.mod_lt n (by omega)
    rw [letters, if_neg h]
    refine ⟨by simp, ?_⟩
    intro c hc
    rcases List.mem_append.mp hc with hc | hc
    · exact ih.small c hc
    · rw [List.mem_singleton.mp hc]
      exact isSmallLetter_letterOf hlast

/-- **At the place of a word nothing but the word is counted to.** -/
theorem letters_of_ordinal (hw : ∀ c ∈ w, IsSmallLetter c) (h : ordinal w = n + 1) :
    letters n = w := by
  induction w using List.reverseRecOn generalizing n with
  | nil => cases h
  | append_singleton w c ih =>
    have hc : IsSmallLetter c := hw c (by simp)
    have hfront : ∀ d ∈ w, IsSmallLetter d := fun d hd => hw d (List.mem_append_left _ hd)
    have hlt : letterNumber c < 26 := letterNumber_lt hc
    rw [ordinal_concat] at h
    rcases Nat.eq_zero_or_pos (ordinal w) with hzero | hpos
    · obtain rfl : n = letterNumber c := by omega
      rw [letters, if_pos hlt, letterOf_letterNumber hc, eq_nil_of_ordinal hzero, List.nil_append]
    · have hbig : ¬ n < 26 := by omega
      have hdigit : n % 26 = letterNumber c := by omega
      have hrest : ordinal w = n / 26 - 1 + 1 := by omega
      rw [letters, if_neg hbig, ih hfront hrest, hdigit, letterOf_letterNumber hc]

/-- Words with the same number are the same word. -/
theorem eq_of_ordinal_eq (hv : ∀ c ∈ v, IsSmallLetter c) (hw : ∀ c ∈ w, IsSmallLetter c)
    (h : ordinal v = ordinal w) : v = w := by
  cases hn : ordinal w with
  | zero =>
    rw [hn] at h
    rw [eq_nil_of_ordinal h, eq_nil_of_ordinal hn]
  | succ n =>
    rw [hn] at h
    rw [← letters_of_ordinal hv h, letters_of_ordinal hw hn]

/-! ## 3. The order of words -/

/-- Of two texts of one length the last character decides if nothing in front of it does. -/
theorem lex_concat_iff (h : v.length = w.length) :
    List.Lex (· < ·) (v ++ [c]) (w ++ [d]) ↔ List.Lex (· < ·) v w ∨ v = w ∧ c < d := by
  induction v generalizing w with
  | nil =>
    obtain rfl : w = [] := List.eq_nil_of_length_eq_zero h.symm
    have hnil : ¬ List.Lex (· < ·) ([] : Text) [] := nofun
    simp only [List.nil_append, List.lex_singleton_iff, hnil, false_or, true_and]
  | cons a v ih =>
    cases w with
    | nil => cases h
    | cons b w =>
      have hlen : v.length = w.length := Nat.succ.inj h
      rw [List.cons_append, List.cons_append]
      constructor
      · intro hlex
        cases hlex with
        | rel hab => exact .inl (.rel hab)
        | cons htail =>
          rcases (ih hlen).mp htail with hfront | ⟨rfl, hlast⟩
          · exact .inl (.cons hfront)
          · exact .inr ⟨rfl, hlast⟩
      · rintro (hlex | ⟨heq, hlast⟩)
        · cases hlex with
          | rel hab => exact .rel hab
          | cons hfront => exact .cons ((ih hlen).mpr (.inl hfront))
        · obtain ⟨rfl, rfl⟩ := List.cons.inj heq
          exact .cons ((ih hlen).mpr (.inr ⟨rfl, hlast⟩))

theorem shortlex_concat_iff : List.Shortlex (· < ·) (v ++ [c]) (w ++ [d]) ↔
    List.Shortlex (· < ·) v w ∨ v = w ∧ c < d := by
  rw [List.shortlex_def, List.shortlex_def, List.length_append, List.length_append,
    List.length_singleton, List.length_singleton]
  by_cases hlen : v.length = w.length
  · simp only [hlen, lex_concat_iff hlen, Nat.lt_irrefl, false_or, true_and]
  · have hne : v ≠ w := fun heq => hlen (congrArg List.length heq)
    simp only [hlen, hne, Nat.add_lt_add_iff_right, Nat.add_right_cancel_iff, false_and, or_false]

/-- **The number of a word grows with the word**, with its length first and then with its
letters. -/
theorem shortlex_iff_ordinal_lt (hv : ∀ c ∈ v, IsSmallLetter c) (hw : ∀ c ∈ w, IsSmallLetter c) :
    List.Shortlex (· < ·) v w ↔ ordinal v < ordinal w := by
  induction w using List.reverseRecOn generalizing v with
  | nil =>
    exact ⟨fun h => absurd h List.not_shortlex_nil_right, fun h => absurd h (Nat.not_lt_zero _)⟩
  | append_singleton w d ih =>
    have hd : IsSmallLetter d := hw d (by simp)
    have hfront : ∀ e ∈ w, IsSmallLetter e := fun e he => hw e (List.mem_append_left _ he)
    rw [ordinal_concat]
    cases v using List.reverseRecOn with
    | nil =>
      refine ⟨fun _ => Nat.succ_pos _, fun _ => .of_length_lt ?_⟩
      rw [List.length_append]
      exact Nat.succ_pos _
    | append_singleton v c =>
      have hc : IsSmallLetter c := hv c (by simp)
      have hrest : ∀ e ∈ v, IsSmallLetter e := fun e he => hv e (List.mem_append_left _ he)
      have hlt : letterNumber c < 26 := letterNumber_lt hc
      have hlt' : letterNumber d < 26 := letterNumber_lt hd
      have hsame : v = w ↔ ordinal v = ordinal w :=
        ⟨congrArg ordinal, eq_of_ordinal_eq hrest hfront⟩
      rw [shortlex_concat_iff, ih hrest hfront, hsame, lt_iff_letterNumber_lt hc hd, ordinal_concat]
      omega

/-! ## 4. Counting -/

/-- **Counting in letters goes through all words, in order, and through each of them once.**  The
numbers from 0 on are matched with the words; a greater number has the longer word or, of two words
of one length, the one that a dictionary has later; and there is a word for each number but those
below 0. -/
theorem words_counted :
    Set.BijOn letters Set.univ {w | IsWord w} ∧
      (∀ m n, List.Shortlex (· < ·) (letters m) (letters n) ↔ m < n) ∧
      ∀ i w, lettersOf? i = some w ↔ ∃ n : Nat, i = n ∧ w = letters n := by
  have hinj : Function.Injective letters := by
    intro m n h
    have hplace := congrArg ordinal h
    rw [ordinal_letters, ordinal_letters] at hplace
    exact Nat.succ.inj hplace
  refine ⟨⟨fun n _ => isWord_letters n, hinj.injOn, ?_⟩, fun m n => ?_, fun i w => ?_⟩
  · intro w hw
    have hpos : ordinal w ≠ 0 := fun h => hw.nonempty (eq_nil_of_ordinal h)
    have hplace : ordinal w = ordinal w - 1 + 1 := by omega
    exact ⟨ordinal w - 1, Set.mem_univ _, letters_of_ordinal hw.small hplace⟩
  · rw [shortlex_iff_ordinal_lt (isWord_letters m).small (isWord_letters n).small,
      ordinal_letters, ordinal_letters, Nat.add_lt_add_iff_right]
  · rw [lettersOf?]
    constructor
    · intro h
      split at h
      · rename_i hi
        exact ⟨i.toNat, (Int.toNat_of_nonneg hi).symm, (Option.some.inj h).symm⟩
      · cases h
    · rintro ⟨n, rfl, rfl⟩
      rw [if_pos (Int.natCast_nonneg n), Int.toNat_natCast]

example : letters 701 = "zz".toList ∧ letters 702 = "aaa".toList := by decide +kernel

end CiteMarkup
