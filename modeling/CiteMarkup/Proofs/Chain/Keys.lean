import CiteMarkup.Chain.Writing
import CiteMarkup.Proofs.Text.Value
/-!
# Keys and their indices

A key says what its parameter is, and the digits at its end say which name the parameter belongs
to.  The two do not depend on each other: with other digits at its end a key says the same
(`keyMeaning_append`), so a key whose name has moved still says what it has said
(`keyMeaning_reindexedKey`).
-/

namespace CiteMarkup

/-! ## 1. Digits -/

section Digits

variable {digits : Text}

theorem asciiLower_of_isAsciiDigit {c : Char} (h : isAsciiDigit c = true) : asciiLower c = c := by
  simp only [isAsciiDigit, Bool.and_eq_true, decide_eq_true_eq] at h
  have hnot : ¬ ('A' ≤ c) := fun hA => absurd (Char.le_trans hA h.2) (by decide)
  simp [asciiLower, hnot]

/-- Digits are not the rest of a word. -/
theorem asciiKeyword?_digits {w : Char} (hw : isAsciiDigit w = false) (ws : Text)
    (h : digits.all isAsciiDigit = true) : asciiKeyword? (w :: ws) digits = none := by
  cases digits with
  | nil => rfl
  | cons d r =>
    rw [List.all_cons, Bool.and_eq_true] at h
    have hne : asciiLower d ≠ w := by
      rw [asciiLower_of_isAsciiDigit h.1]
      rintro rfl
      rw [h.1] at hw
      cases hw
    rw [asciiKeyword?, if_neg hne]

/-- A number is read back from its digits. -/
theorem indexOf_ofNat (i : Nat) : indexOf (Text.ofNat i) = some i := by
  rw [indexOf, nonempty?_of_ne (Text.ofNat_ne_nil i), Option.map_some, Text.toNat_ofNat]

theorem all_ofNat (i : Nat) : (Text.ofNat i).all isAsciiDigit = true :=
  List.all_eq_true.mpr fun _ hc => Text.isAsciiDigit_of_mem_ofNat hc

/-- A number alone is the index of a name. -/
theorem keyMeaning_ofNat (i : Nat) : KeyMeaning.of (Text.ofNat i) = .name (some i) := by
  rw [KeyMeaning.of, if_pos (all_ofNat i), indexOf_ofNat]

/-- The index of a written key, if it has one. -/
theorem indexOf_indexSuffix (i : Nat) :
    indexOf (indexSuffix i) = if 1 < i then some i else none := by
  unfold indexSuffix
  split
  · exact indexOf_ofNat i
  · rfl

theorem all_indexSuffix (i : Nat) : (indexSuffix i).all isAsciiDigit = true := by
  unfold indexSuffix
  split
  · exact all_ofNat i
  · rfl

end Digits

/-! ## 2. A key with digits behind it -/

/-- What a parameter is, whichever name it belongs to. -/
def KeyMeaning.role : KeyMeaning → Role
  | .name _ => .name
  | .part role _ => role
  | .unknown _ => .other

/-- The index that a key has. -/
def KeyMeaning.index : KeyMeaning → Option Nat
  | .name i | .part _ i | .unknown i => i

/-- The same with another index. -/
def KeyMeaning.withIndex (i : Option Nat) : KeyMeaning → KeyMeaning
  | .name _ => .name i
  | .part role _ => .part role i
  | .unknown _ => .unknown i

@[simp] theorem KeyMeaning.role_withIndex (i : Option Nat) (m : KeyMeaning) :
    (m.withIndex i).role = m.role := by
  cases m <;> rfl

@[simp] theorem KeyMeaning.index_withIndex (i : Option Nat) (m : KeyMeaning) :
    (m.withIndex i).index = i := by
  cases m <;> rfl

/-- The text does not end in a digit. -/
def EndsInNoDigit (base : Text) : Prop := ∀ c ∈ base.getLast?, isAsciiDigit c = false

/-- The words that keys begin with hold no digits. -/
def AreWords (words : List Text) : Prop := ∀ w ∈ words, ∀ c ∈ w, isAsciiDigit c = false

section Append

variable {base digits rest w : Text} {words : List Text}

theorem length_of_asciiKeyword? (h : asciiKeyword? w base = some rest) :
    base.length = w.length + rest.length := by
  induction w generalizing base with
  | nil =>
    obtain rfl : base = rest := Option.some.inj h
    simp
  | cons c ws ih =>
    cases base with
    | nil => cases h
    | cons d r =>
      rw [asciiKeyword?] at h
      split at h
      · have := ih h
        simp only [List.length_cons]
        omega
      · cases h

theorem suffix_of_asciiKeyword? (h : asciiKeyword? w base = some rest) : rest <:+ base := by
  induction w generalizing base with
  | nil => exact Option.some.inj h ▸ List.suffix_refl base
  | cons c ws ih =>
    cases base with
    | nil => cases h
    | cons d r =>
      rw [asciiKeyword?] at h
      split at h
      · exact (ih h).trans (List.suffix_cons d r)
      · cases h

/-- Digits behind a text do not make it begin with another word. -/
theorem asciiKeyword?_append (hw : ∀ c ∈ w, isAsciiDigit c = false)
    (h : digits.all isAsciiDigit = true) (base : Text) :
    asciiKeyword? w (base ++ digits) = (asciiKeyword? w base).map (· ++ digits) := by
  induction w generalizing base with
  | nil => rfl
  | cons c ws ih =>
    cases base with
    | nil => exact asciiKeyword?_digits (hw c List.mem_cons_self) ws h
    | cons d r =>
      rw [List.cons_append, asciiKeyword?, asciiKeyword?]
      split
      · exact ih (fun c hc => hw c (List.mem_cons_of_mem _ hc)) r
      · rfl

theorem all_digits_eq_false (hbase : EndsInNoDigit base) (hne : base ≠ []) :
    base.all isAsciiDigit = false := by
  rw [List.all_eq_false]
  refine ⟨base.getLast hne, List.getLast_mem hne, ?_⟩
  simpa using hbase _ (List.getLast?_eq_some_getLast hne)

/-- The end of a text that does not end in a digit is not made of digits. -/
theorem EndsInNoDigit.of_suffix (hbase : EndsInNoDigit base) (h : rest <:+ base) :
    EndsInNoDigit rest := by
  intro c hc
  obtain ⟨front, rfl⟩ := h
  have hne : rest ≠ [] := by
    rintro rfl
    cases hc
  exact hbase c (by rwa [List.getLast?_append_of_ne_nil _ hne])

/-- Behind one of the words stand the digits, and nothing else. -/
theorem indexAfter?_append (hwords : AreWords words) (hbase : EndsInNoDigit base)
    (h : digits.all isAsciiDigit = true) :
    indexAfter? words (base ++ digits) = (indexAfter? words base).map fun _ => digits := by
  induction words with
  | nil => rfl
  | cons w words ih =>
    have hrest := ih fun x hx => hwords x (List.mem_cons_of_mem _ hx)
    rw [indexAfter?] at hrest ⊢
    rw [indexAfter?, List.findSome?_cons, List.findSome?_cons, hrest,
      asciiKeyword?_append (hwords w List.mem_cons_self) h]
    cases hw : asciiKeyword? w base with
    | none => rfl
    | some rest =>
      by_cases hnil : rest = []
      · subst hnil
        simp only [Option.map_some, List.nil_append, Option.bind_some, h, if_true]
        rfl
      · have hend := all_digits_eq_false (hbase.of_suffix (suffix_of_asciiKeyword? hw)) hnil
        simp only [Option.map_some, Option.bind_some, List.all_append, hend, Bool.false_and]
        rfl

theorem trailingDigits_append (hbase : EndsInNoDigit base) (h : digits.all isAsciiDigit = true) :
    trailingDigits (base ++ digits) = digits := by
  have hdigits : ∀ c ∈ digits.reverse, isAsciiDigit c = true := fun c hc =>
    List.all_eq_true.mp h c (List.mem_reverse.mp hc)
  have hstop : base.reverse.takeWhile isAsciiDigit = [] := by
    cases hreverse : base.reverse with
    | nil => rfl
    | cons c r =>
      have hlast : base.getLast? = some c := by rw [← List.head?_reverse, hreverse]; rfl
      exact List.takeWhile_cons_of_neg (by simp [hbase c hlast])
  rw [trailingDigits, List.reverse_append, List.takeWhile_append_of_pos hdigits, hstop,
    List.append_nil, List.reverse_reverse]

theorem areWords_roleWords {role : Role} (h : (role, words) ∈ roleWords) : AreWords words := by
  have hall : roleWords.all (fun x => x.2.all fun w => w.all (!isAsciiDigit ·)) = true := by decide
  intro w hw c hc
  have hwords := List.all_eq_true.mp hall _ h
  simpa using List.all_eq_true.mp (List.all_eq_true.mp hwords w hw) c hc

theorem areWords_nameWords : AreWords nameWords := by
  have hall : nameWords.all (fun w => w.all (!isAsciiDigit ·)) = true := by decide
  intro w hw c hc
  simpa using List.all_eq_true.mp (List.all_eq_true.mp hall w hw) c hc

/-- The role that a key stands for, and the digits behind it. -/
theorem findSome?_roleWords_append (hbase : EndsInNoDigit base)
    (h : digits.all isAsciiDigit = true) {roles : List (Role × List Text)}
    (hroles : ∀ x ∈ roles, x ∈ roleWords) :
    (roles.findSome? fun (role, words) =>
        (indexAfter? words (base ++ digits)).map fun digits => (role, digits)) =
      (roles.findSome? fun (role, words) =>
        (indexAfter? words base).map fun digits => (role, digits)).map fun x => (x.1, digits) := by
  induction roles with
  | nil => rfl
  | cons x roles ih =>
    obtain ⟨role, words⟩ := x
    have hx := areWords_roleWords (hroles (role, words) List.mem_cons_self)
    rw [List.findSome?_cons, List.findSome?_cons,
      ih fun y hy => hroles y (List.mem_cons_of_mem _ hy)]
    simp only [indexAfter?_append hx hbase h]
    cases indexAfter? words base <;> rfl

/-- **The digits at the end of a key are its index, and do not change what the key says.** -/
theorem keyMeaning_append (hne : base ≠ []) (hbase : EndsInNoDigit base)
    (h : digits.all isAsciiDigit = true) :
    KeyMeaning.of (base ++ digits) = (KeyMeaning.of base).withIndex (indexOf digits) := by
  have hall := all_digits_eq_false hbase hne
  have hall' : (base ++ digits).all isAsciiDigit = false := by
    rw [List.all_append, hall, Bool.false_and]
  simp only [KeyMeaning.of, hall, hall', Bool.false_eq_true, if_false,
    indexAfter?_append areWords_nameWords hbase h,
    findSome?_roleWords_append hbase h (fun x hx => hx), trailingDigits_append hbase h]
  cases indexAfter? nameWords base with
  | some rest => rfl
  | none =>
    simp only [Option.map_none]
    cases roleWords.findSome? fun x => (indexAfter? x.2 base).map fun digits => (x.1, digits) with
    | some x => rfl
    | none => rfl

end Append

/-! ## 3. Characters of keys -/

/-- What keys are made of: the words that they begin with. -/
def keyWords : List Text := nameWords ++ roleWords.flatMap (·.2)

/-- A character of no key: it is no digit and in no word. -/
def IsForeign (c : Char) : Prop :=
  isAsciiDigit c = false ∧ ∀ w ∈ keyWords, asciiLower c ∉ w

section Foreign

variable {c : Char} {key : Text}

theorem mem_of_asciiKeyword? {w rest : Text} (h : asciiKeyword? w key = some rest)
    (hc : asciiLower c ∉ w) (hm : c ∈ key) : c ∈ rest := by
  induction w generalizing key with
  | nil => exact Option.some.inj h ▸ hm
  | cons x ws ih =>
    cases key with
    | nil => cases h
    | cons d r =>
      rw [asciiKeyword?] at h
      split at h
      · rename_i hd
        refine ih h (fun hmem => hc (List.mem_cons_of_mem _ hmem)) ?_
        rcases List.mem_cons.mp hm with rfl | hm
        · exact absurd (hd ▸ List.mem_cons_self) hc
        · exact hm
      · cases h

theorem indexAfter?_of_foreign {words : List Text} (hc : IsForeign c) (hm : c ∈ key)
    (hwords : ∀ w ∈ words, w ∈ keyWords) : indexAfter? words key = none := by
  refine List.findSome?_eq_none_iff.mpr fun w hw => ?_
  cases hrest : asciiKeyword? w key with
  | none => rfl
  | some rest =>
    have hmem := mem_of_asciiKeyword? hrest (hc.2 w (hwords w hw)) hm
    have hall : rest.all isAsciiDigit = false := List.all_eq_false.mpr ⟨c, hmem, by simp [hc.1]⟩
    rw [Option.bind_some, hall]
    rfl

/-- A key with a foreign character says nothing but an index. -/
theorem keyMeaning_of_foreign (hc : IsForeign c) (hm : c ∈ key) :
    KeyMeaning.of key = .unknown (indexOf (trailingDigits key)) := by
  have hall : key.all isAsciiDigit = false := List.all_eq_false.mpr ⟨c, hm, by simp [hc.1]⟩
  have hname : indexAfter? nameWords key = none :=
    indexAfter?_of_foreign hc hm fun w hw => List.mem_append_left _ hw
  simp only [KeyMeaning.of, hall, hname, Bool.false_eq_true, if_false]
  split
  · rename_i role digits hrole
    obtain ⟨⟨role', words⟩, hx, hsome⟩ := List.exists_of_findSome?_eq_some hrole
    have hnone : indexAfter? words key = none := indexAfter?_of_foreign hc hm fun w hw =>
      List.mem_append_right _ (List.mem_flatMap.mpr ⟨(role', words), hx, hw⟩)
    simp [hnone] at hsome
  · rfl

theorem isForeign_of_isBlank (h : isBlank c = true) : IsForeign c := by
  have hwords : keyWords.all (fun w => w.all (!isBlank ·)) = true := by decide
  have hbounds : c.toNat < 0x30 ∨ 0x7A < c.toNat := by
    simp only [isBlank, Bool.or_eq_true, Bool.and_eq_true, decide_eq_true_eq] at h
    omega
  have hdigit : isAsciiDigit c = false := by
    simp only [isAsciiDigit, Bool.and_eq_false_iff, decide_eq_false_iff_not]
    have hlower : '0' ≤ c ↔ 0x30 ≤ c.toNat := Iff.rfl
    have hupper : c ≤ '9' ↔ c.toNat ≤ 0x39 := Iff.rfl
    rw [hlower, hupper]
    omega
  have hcapital : ¬ ('A' ≤ c ∧ c ≤ 'Z') := by
    have hlower : 'A' ≤ c ↔ 0x41 ≤ c.toNat := Iff.rfl
    have hupper : c ≤ 'Z' ↔ c.toNat ≤ 0x5A := Iff.rfl
    rw [hlower, hupper]
    omega
  refine ⟨hdigit, fun w hw hmem => ?_⟩
  have hlower : asciiLower c = c := by simp [asciiLower, hcapital]
  have hno := List.all_eq_true.mp (List.all_eq_true.mp hwords w hw) c (hlower ▸ hmem)
  rw [h] at hno
  cases hno

/-- No foreign character stands in a key that says something known. -/
theorem not_mem_of_role (h : (KeyMeaning.of key).role ≠ .other) (hc : IsForeign c) : c ∉ key := by
  intro hmem
  rw [keyMeaning_of_foreign hc hmem] at h
  exact h rfl

/-- A key that says something known has no blanks around it. -/
theorem trimmed_of_role (h : (KeyMeaning.of key).role ≠ .other) : key.Trimmed := by
  have hno : ∀ c ∈ key, isBlank c = false := by
    intro c hc
    rw [Bool.eq_false_iff]
    intro hblank
    exact not_mem_of_role h (isForeign_of_isBlank hblank) hc
  exact ⟨fun c hc => hno c (List.mem_of_mem_head? hc), fun c hc => hno c (List.mem_of_getLast? hc)⟩

end Foreign

/-! ## 4. Keys that are written anew -/

/-- A key without the digits at its end, and these digits. -/
theorem unindexed_append (key : Text) (h : key.Trimmed) :
    unindexed key ++ trailingDigits key = key ∧ EndsInNoDigit (unindexed key) ∧
      (trailingDigits key).all isAsciiDigit = true := by
  have hlast : key.getLast? ≠ some '\n' := fun heq =>
    absurd (h.last '\n' heq) (by decide)
  have hsplit : (key.reverse.dropWhile isAsciiDigit).reverse ++ trailingDigits key = key := by
    rw [trailingDigits, ← List.reverse_append, List.takeWhile_append_dropWhile,
      List.reverse_reverse]
  have hbase : unindexed key = (key.reverse.dropWhile isAsciiDigit).reverse := by
    have hlength := congrArg List.length hsplit
    rw [List.length_append] at hlength
    simp only [unindexed, if_neg hlast, List.drop_length, List.append_nil]
    split
    · rename_i hnil
      rw [List.isEmpty_iff.mp hnil, List.append_nil] at hsplit
      exact hsplit.symm
    · have htake : key.length - (trailingDigits key).length =
          (key.reverse.dropWhile isAsciiDigit).reverse.length := by omega
      rw [htake, ← List.prefix_iff_eq_take.mp ⟨_, hsplit⟩]
  refine ⟨hbase ▸ hsplit, ?_, ?_⟩
  · intro c hc
    rw [hbase, List.getLast?_reverse] at hc
    have hnot := List.head?_dropWhile_not isAsciiDigit key.reverse
    rw [hc] at hnot
    simpa using hnot
  · rw [trailingDigits, List.all_reverse, List.all_takeWhile]

section Reindexed

variable {key : Text} {j : Nat} {role : Role}

/-- What a key is written as when its name has moved: a number alone as the new one, a key that
needs no index as it is, and any other with the new index in the place of the old one. -/
theorem reindexedKey_cases (key : Text) (role : Role) (j : Nat) :
    (unindexed key = [] ∧ reindexedKey key role j = Text.ofNat j) ∨
    (unindexed key = key ∧ key ≠ [] ∧ role.defaultKey? = none ∧ reindexedKey key role j = key) ∨
    (unindexed key ≠ [] ∧ reindexedKey key role j = unindexed key ++ indexSuffix j) := by
  unfold reindexedKey
  by_cases hnil : unindexed key = []
  · exact .inl ⟨hnil, by simp [hnil]⟩
  · have hempty : (unindexed key).isEmpty = false := List.isEmpty_eq_false_iff.mpr hnil
    simp only [hempty, Bool.false_eq_true, if_false]
    split
    · rename_i hstays
      obtain ⟨hsame, hknown⟩ := Bool.and_eq_true_iff.mp hstays
      have hsame := beq_iff_eq.mp hsame
      exact .inr (.inl ⟨hsame, hsame ▸ hnil, Option.isNone_iff_eq_none.mp hknown, rfl⟩)
    · exact .inr (.inr ⟨hnil, rfl⟩)

/-- What a key says without its index. -/
theorem role_unindexed (h : key.Trimmed) (hne : unindexed key ≠ []) :
    (KeyMeaning.of (unindexed key)).role = (KeyMeaning.of key).role := by
  obtain ⟨hsplit, hbase, hdigits⟩ := unindexed_append key h
  rw [← KeyMeaning.role_withIndex (indexOf (trailingDigits key)),
    ← keyMeaning_append hne hbase hdigits, hsplit]

/-- **A key whose name has moved says what it has said**, and has the new index.  It may have
none if that is the first, and if its parameter is a name or nothing that is known. -/
theorem keyMeaning_reindexedKey (h : key.Trimmed) (hrole : role = (KeyMeaning.of key).role) :
    let m := KeyMeaning.of (reindexedKey key role j)
    m.role = role ∧ (m.index = some j ∨
      m.index = none ∧ (j ≤ 1 ∨ role = .name ∨ role = .other)) := by
  intro m
  obtain ⟨hsplit, hbase, hdigits⟩ := unindexed_append key h
  rcases reindexedKey_cases key role j with ⟨hnil, heq⟩ | ⟨hsame, hkey, hknown, heq⟩ | ⟨hne, heq⟩
  · have hkey : key.all isAsciiDigit = true := by
      rw [← hsplit, hnil]
      exact hdigits
    have hname : role = .name := by
      rw [hrole, KeyMeaning.of, if_pos hkey]
      rfl
    have hm : m = .name (some j) := by
      simp only [m, heq]
      exact keyMeaning_ofNat j
    rw [hm, hname]
    exact ⟨rfl, .inl rfl⟩
  · have hdigits : trailingDigits key = [] := by
      rw [hsame] at hsplit
      simpa using hsplit
    have hm : m.index = none := by
      have happend := keyMeaning_append hkey (hsame ▸ hbase) (List.all_nil : [].all _ = true)
      rw [List.append_nil] at happend
      simp only [m, heq]
      rw [happend, KeyMeaning.index_withIndex]
      rfl
    have hm' : m.role = role := by rw [hrole]; simp only [m, heq]
    refine ⟨hm', .inr ⟨hm, .inr ?_⟩⟩
    cases role with
    | name => exact .inl rfl
    | other => exact .inr rfl
    | group | page | pages | place => cases hknown
  · have hm : m = (KeyMeaning.of (unindexed key)).withIndex (indexOf (indexSuffix j)) := by
      rw [← keyMeaning_append hne hbase (all_indexSuffix j)]
      simp only [m, heq]
    rw [hm, KeyMeaning.role_withIndex, KeyMeaning.index_withIndex, indexOf_indexSuffix,
      role_unindexed h hne]
    refine ⟨hrole.symm, ?_⟩
    split
    · exact .inl rfl
    · exact .inr ⟨rfl, .inl (by omega)⟩

/-- A key whose name has moved differs from the key in the digits at its end. -/
theorem exists_reindexedKey (key : Text) (role : Role) (j : Nat) :
    ∃ digits : Text, digits.all isAsciiDigit = true ∧
      reindexedKey key role j = unindexed key ++ digits := by
  rcases reindexedKey_cases key role j with ⟨hnil, heq⟩ | ⟨hsame, -, -, heq⟩ | ⟨-, heq⟩
  · exact ⟨Text.ofNat j, all_ofNat j, by rw [heq, hnil, List.nil_append]⟩
  · exact ⟨[], rfl, by rw [heq, List.append_nil, hsame]⟩
  · exact ⟨indexSuffix j, all_indexSuffix j, heq⟩

/-- The characters of a key whose name has moved are characters of the key, and digits. -/
theorem mem_reindexedKey {c : Char} (h : key.Trimmed) (hc : c ∈ reindexedKey key role j) :
    c ∈ key ∨ isAsciiDigit c = true := by
  obtain ⟨digits, hdigits, heq⟩ := exists_reindexedKey key role j
  rw [heq] at hc
  rcases List.mem_append.mp hc with hc | hc
  · exact .inl ((unindexed_append key h).1 ▸ List.mem_append_left _ hc)
  · exact .inr (List.all_eq_true.mp hdigits c hc)

theorem isKey_ofNat (i : Nat) : IsKey (Text.ofNat i) :=
  ⟨Text.ofNat_ne_nil i, fun c hc => by rw [Text.isAsciiDigit_of_mem_ofNat hc, Bool.or_true]⟩

/-- A key whose name has moved begins with no blank. -/
theorem head_reindexedKey (role : Role) (j : Nat) (h : key.Trimmed) (hne : key ≠ []) :
    (∀ c ∈ (reindexedKey key role j).head?, isBlank c = false) ∧ reindexedKey key role j ≠ [] := by
  rcases reindexedKey_cases key role j with ⟨-, heq⟩ | ⟨-, -, -, heq⟩ | ⟨hnil, heq⟩
  · rw [heq]
    exact ⟨(trimmed_of_isKey (isKey_ofNat j)).head, Text.ofNat_ne_nil j⟩
  · rw [heq]
    exact ⟨h.head, hne⟩
  · rw [heq]
    refine ⟨fun c hc => h.head c ?_, by simp [hnil]⟩
    rw [List.head?_append_of_ne_nil _ hnil] at hc
    rw [← (unindexed_append key h).1, List.head?_append_of_ne_nil _ hnil]
    exact hc

/-- It has no blanks around it, unless one stands in front of the old index and the new one is
not written. -/
theorem trimmed_reindexedKey (role : Role) (h : key.Trimmed) (hne : key ≠ [])
    (hbase : 1 < j ∨ (unindexed key).Trimmed) : (reindexedKey key role j).Trimmed := by
  refine ⟨(head_reindexedKey role j h hne).1, ?_⟩
  rcases reindexedKey_cases key role j with ⟨-, heq⟩ | ⟨-, -, -, heq⟩ | ⟨-, heq⟩
  · rw [heq]
    exact (trimmed_of_isKey (isKey_ofNat j)).last
  · rw [heq]
    exact h.last
  · rw [heq]
    unfold indexSuffix
    split
    · rw [List.getLast?_append_of_ne_nil _ (Text.ofNat_ne_nil j)]
      exact (trimmed_of_isKey (isKey_ofNat j)).last
    · rename_i hj
      rw [List.append_nil]
      exact (hbase.resolve_left hj).last

/-- In front of the index of a key that says something known stands no blank. -/
theorem trimmed_unindexed (h : key.Trimmed) (hrole : (KeyMeaning.of key).role ≠ .other) :
    (unindexed key).Trimmed := by
  by_cases hnil : unindexed key = []
  · rw [hnil]
    exact ⟨by simp, by simp⟩
  · exact trimmed_of_role (by rwa [role_unindexed h hnil])

/-- What belongs to the first name is written without an index. -/
theorem reindexedKey_one (h : key.Trimmed) (hrole : (KeyMeaning.of key).role ≠ .name) :
    reindexedKey key role 1 = unindexed key ∧ unindexed key ≠ [] := by
  obtain ⟨hsplit, -, hdigits⟩ := unindexed_append key h
  rcases reindexedKey_cases key role 1 with ⟨hnil, -⟩ | ⟨hsame, hne, -, heq⟩ | ⟨hne, heq⟩
  · rw [hnil, List.nil_append] at hsplit
    rw [KeyMeaning.of, ← hsplit, if_pos hdigits] at hrole
    exact absurd rfl hrole
  · exact ⟨heq.trans hsame.symm, by rwa [hsame]⟩
  · exact ⟨heq.trans (List.append_nil _), hne⟩

end Reindexed

/-! ## 5. Counting by keys -/

/-- A key with a role of its own stands for neither a name nor something unknown. -/
theorem role_of_part {key : Text} {role : Role} {index : Option Nat}
    (h : KeyMeaning.of key = .part role index) : role ≠ .name ∧ role ≠ .other := by
  have hall : ∀ x ∈ roleWords, x.1 ≠ .name ∧ x.1 ≠ .other := by decide
  unfold KeyMeaning.of at h
  split at h
  · cases h
  · split at h
    · cases h
    · split at h
      · rename_i role' digits hfound
        obtain ⟨rfl, -⟩ := KeyMeaning.part.inj h
        obtain ⟨⟨role, words⟩, hmem, heq⟩ := List.exists_of_findSome?_eq_some hfound
        obtain ⟨digits', -, heq⟩ := Option.map_eq_some_iff.mp heq
        obtain ⟨rfl, -⟩ := Prod.mk.inj heq
        exact hall _ hmem
      · cases h

section Counting

variable {s : Tally} {key : Text} {j : Nat}

theorem Tally.role_count (s : Tally) (m : KeyMeaning) : (s.count m).1 = m.role := by
  cases m with
  | name index => cases index <;> rfl
  | part role index => cases role <;> rfl
  | unknown index => rfl

/-- A name with the next index, or without one, is counted at the next position. -/
theorem Tally.count_name (hrole : (KeyMeaning.of key).role = .name)
    (hindex : (KeyMeaning.of key).index = some j ∨ (KeyMeaning.of key).index = none)
    (hs : s.names + 1 = j) :
    ∃ s', s.count (KeyMeaning.of key) = (.name, j, s') ∧ (s'.keep .name j).names = j ∧
      (s'.keep .name j).latest = j := by
  cases hm : KeyMeaning.of key with
  | unknown index =>
    rw [hm] at hrole
    cases hrole
  | part role index =>
    rw [hm] at hrole
    exact absurd hrole (role_of_part hm).1
  | name index =>
    rw [hm] at hindex
    cases index with
    | none =>
      subst hs
      exact ⟨_, rfl, Nat.max_self _, rfl⟩
    | some i =>
      obtain rfl : i = j := by simpa [KeyMeaning.index] using hindex
      have hmax : max s.names i = i := by omega
      exact ⟨_, rfl, hmax, rfl⟩

/-- Another parameter is counted for the latest name if it has no index and needs none, and else
for the name that its index says.  Nothing that matters to names is changed by it. -/
theorem Tally.count_part (hrole : (KeyMeaning.of key).role ≠ .name)
    (hindex : (KeyMeaning.of key).index = none → j ≤ 1 ∨ (KeyMeaning.of key).role = .other)
    (hj : 1 ≤ j) (hlatest : s.latest = j)
    (hnames : (KeyMeaning.of key).role = .other → s.names = j) :
    ∃ s', s.count (KeyMeaning.of key) =
        ((KeyMeaning.of key).role, (KeyMeaning.of key).index.getD j, s') ∧
      s'.names = s.names ∧ s'.latest = s.latest := by
  cases hm : KeyMeaning.of key with
  | name index =>
    rw [hm] at hrole
    exact absurd rfl hrole
  | unknown index =>
    rw [hm] at hnames
    have hmax : max s.names 1 = j := by
      have := hnames rfl
      omega
    refine ⟨s, ?_, rfl, rfl⟩
    exact congrArg (fun i => (Role.other, index.getD i, s)) hmax
  | part role index =>
    rw [hm] at hindex
    have hknown := role_of_part hm
    have hfirst : index.getD 1 = index.getD j := by
      cases index with
      | some i => rfl
      | none =>
        have hone : j = 1 := by
          have := (hindex rfl).resolve_right hknown.2
          omega
        rw [hone]
    -- with one name so far, a group without an index belongs to that
    have hgroup : index.getD (if s.firstGrouped && 1 < s.latest then s.latest else 1) =
        index.getD j := by
      cases index with
      | some i => rfl
      | none =>
        have hsmall := (hindex rfl).resolve_right hknown.2
        have hlow : ¬ (s.firstGrouped && decide (1 < s.latest)) = true := by
          simp only [Bool.and_eq_true, decide_eq_true_eq]
          omega
        rw [if_neg hlow]
        exact hfirst
    cases role with
    | name => exact absurd rfl hknown.1
    | other => exact absurd rfl hknown.2
    | group =>
      refine ⟨{ s with firstGrouped := s.firstGrouped || decide (index.getD j = 1) }, ?_, rfl, rfl⟩
      simp only [Tally.count, hgroup]
      rfl
    | page | pages | place => exact ⟨s, congrArg (fun i => (_, i, s)) hfirst, rfl, rfl⟩

end Counting

end CiteMarkup
