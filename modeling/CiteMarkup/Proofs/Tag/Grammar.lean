import CiteMarkup.Proofs.Tag.Written
/-!
# The form of opening tags

An opening tag holds attributes, each with blanks before it and a value behind it, and blanks at
its end.  This is said of the text itself (`Opening.IsInside`), and the machine for opening tags
reads to the bracket of a tag with content exactly what has this form (`Opening.read?_iff`): what it
has read in a state is a beginning of it (`Opening.Led`), and each part of it leads the machine on.
-/

namespace CiteMarkup
namespace Opening

/-! ## 1. The form of opening tags -/

/-- A character of a bare value. -/
def isBareChar (c : Char) : Bool := !(isBlank c || c = '/' || c = '>' || isQuote c)

/-- A value: between quotes of one kind, or bare. -/
inductive IsValue : Text → Prop where
  | quoted {q : Char} {v : Text} : isQuote q = true → q ∉ v → IsValue (q :: (v ++ [q]))
  | bare {v : Text} : v ≠ [] → v.all isBareChar = true → IsValue v

/-- Blanks and the name of an attribute. -/
inductive IsNamed : Text → Prop where
  | mk {u n : Text} : u ≠ [] → u.isBlankOnly = true → n ≠ [] → n.all isNameChar = true →
      IsNamed (u ++ n)

/-- An attribute up to its value. -/
inductive IsAssigned : Text → Prop where
  | mk {n u v : Text} : IsNamed n → u.isBlankOnly = true → v.isBlankOnly = true →
      IsAssigned (n ++ (u ++ '=' :: v))

/-- An attribute, with the blanks before it. -/
inductive IsPair : Text → Prop where
  | mk {n v : Text} : IsAssigned n → IsValue v → IsPair (n ++ v)

/-- Attributes one behind the other. -/
def ArePairs (t : Text) : Prop := ∃ ws : List Text, (∀ w ∈ ws, IsPair w) ∧ ws.flatten = t

/-- What stands between the name of an opening tag and its bracket, if the tag is to have
content. -/
def IsInside (t : Text) : Prop := ∃ l u : Text, ArePairs l ∧ u.isBlankOnly = true ∧ l ++ u = t

variable {l n p u v w r t : Text} {c q : Char} {s s' : State} {offset : Nat}

theorem ArePairs.concat (h : ArePairs l) (hw : IsPair w) : ArePairs (l ++ w) := by
  obtain ⟨ws, hws, rfl⟩ := h
  refine ⟨ws ++ [w], fun x hx => ?_, by simp⟩
  rcases List.mem_append.mp hx with hx | hx
  · exact hws x hx
  · exact List.mem_singleton.mp hx ▸ hw

theorem isBlankOnly_singleton (hc : isBlank c = true) : Text.isBlankOnly [c] = true := by
  simpa [Text.isBlankOnly] using hc

theorem isBlankOnly_concat (hu : u.isBlankOnly = true) (hc : isBlank c = true) :
    (u ++ [c]).isBlankOnly = true := by
  rw [Text.isBlankOnly, List.all_append, Bool.and_eq_true]
  exact ⟨hu, isBlankOnly_singleton hc⟩

/-! ## 2. What the machine accepts has the form -/

/-- What the machine has read when it stands in a state.  Behind a slash there is nothing to say:
the tag has no content. -/
def Led (p : Text) : State → Prop
  | .between false => ArePairs p
  | .between true => ∃ l u : Text, ArePairs l ∧ u ≠ [] ∧ u.isBlankOnly = true ∧ p = l ++ u
  | .name => ∃ l n, ArePairs l ∧ IsNamed n ∧ p = l ++ n
  | .named => ∃ l n u : Text, ArePairs l ∧ IsNamed n ∧ u.isBlankOnly = true ∧ p = l ++ (n ++ u)
  | .equals => ∃ l n, ArePairs l ∧ IsAssigned n ∧ p = l ++ n
  | .quoted q => ∃ l n v, ArePairs l ∧ IsAssigned n ∧ isQuote q = true ∧ q ∉ v ∧
      p = l ++ (n ++ q :: v)
  | .bare => ∃ l n v, ArePairs l ∧ IsAssigned n ∧ v ≠ [] ∧ v.all isBareChar = true ∧
      p = l ++ (n ++ v)
  | .slash _ => True

theorem IsNamed.concat (h : IsNamed n) (hc : isNameChar c = true) : IsNamed (n ++ [c]) := by
  obtain ⟨hu, hblank, -, hname⟩ := h
  rw [List.append_assoc]
  exact ⟨hu, hblank, by simp, by rw [List.all_append, hname]; simpa using hc⟩

theorem IsAssigned.concat (h : IsAssigned n) (hc : isBlank c = true) : IsAssigned (n ++ [c]) := by
  obtain ⟨hn, hu, hv⟩ := h
  rw [List.append_assoc, List.append_assoc, List.cons_append]
  exact ⟨hn, hu, isBlankOnly_concat hv hc⟩

/-- Between attributes a blank, a slash, or behind a blank the first character of a name is read. -/
theorem Led.next_between {gap : Bool} (h : Led p (.between gap))
    (hnext : next? offset c (.between gap) = some s') : Led (p ++ [c]) s' := by
  simp only [next?] at hnext
  split at hnext
  · rename_i hc
    obtain rfl := Option.some.inj hnext
    cases gap with
    | false => exact ⟨p, [c], h, by simp, isBlankOnly_singleton hc, rfl⟩
    | true =>
      obtain ⟨l, u, hl, -, hu, rfl⟩ := h
      exact ⟨l, u ++ [c], hl, by simp, isBlankOnly_concat hu hc, by simp⟩
  · split at hnext
    · obtain rfl := Option.some.inj hnext
      trivial
    · split at hnext
      · rename_i hc
        obtain rfl := Option.some.inj hnext
        obtain ⟨rfl, hc⟩ := Bool.and_eq_true_iff.mp hc
        obtain ⟨l, u, hl, hne, hu, rfl⟩ := h
        exact ⟨l, u ++ [c], hl, ⟨hne, hu, by simp, by simpa using hc⟩, by simp⟩
      · cases hnext

/-- In a name one more character of it, a blank, or the sign of equality is read. -/
theorem Led.next_name (h : Led p .name) (hnext : next? offset c .name = some s') :
    Led (p ++ [c]) s' := by
  obtain ⟨l, n, hl, hn, rfl⟩ := h
  simp only [next?] at hnext
  split at hnext
  · rename_i hc
    obtain rfl := Option.some.inj hnext
    exact ⟨l, n ++ [c], hl, hn.concat hc, by simp⟩
  · split at hnext
    · rename_i hc
      obtain rfl := Option.some.inj hnext
      exact ⟨l, n, [c], hl, hn, isBlankOnly_singleton hc, by simp⟩
    · split at hnext
      · rename_i hc
        obtain rfl := Option.some.inj hnext
        exact ⟨l, n ++ ([] ++ '=' :: []), hl, ⟨hn, rfl, rfl⟩, by simp [hc]⟩
      · cases hnext

theorem Led.next_named (h : Led p .named) (hnext : next? offset c .named = some s') :
    Led (p ++ [c]) s' := by
  obtain ⟨l, n, u, hl, hn, hu, rfl⟩ := h
  simp only [next?] at hnext
  split at hnext
  · rename_i hc
    obtain rfl := Option.some.inj hnext
    exact ⟨l, n, u ++ [c], hl, hn, isBlankOnly_concat hu hc, by simp⟩
  · split at hnext
    · rename_i hc
      obtain rfl := Option.some.inj hnext
      exact ⟨l, n ++ (u ++ '=' :: []), hl, ⟨hn, hu, rfl⟩, by simp [hc]⟩
    · cases hnext

/-- Behind the sign of equality a blank, a quote, or the first character of a bare value is read. -/
theorem Led.next_equals (h : Led p .equals) (hnext : next? offset c .equals = some s') :
    Led (p ++ [c]) s' := by
  obtain ⟨l, n, hl, hn, rfl⟩ := h
  simp only [next?] at hnext
  split at hnext
  · rename_i hc
    obtain rfl := Option.some.inj hnext
    exact ⟨l, n ++ [c], hl, hn.concat hc, by simp⟩
  · rename_i hblank
    split at hnext
    · rename_i hc
      obtain rfl := Option.some.inj hnext
      exact ⟨l, n, [], hl, hn, hc, by simp, by simp⟩
    · rename_i hquote
      split at hnext
      · cases hnext
      · rename_i hc
        obtain rfl := Option.some.inj hnext
        exact ⟨l, n, [c], hl, hn, by simp, by simp_all [isBareChar], by simp⟩

theorem Led.next_quoted (h : Led p (.quoted q)) (hnext : next? offset c (.quoted q) = some s') :
    Led (p ++ [c]) s' := by
  obtain ⟨l, n, v, hl, hn, hq, hv, rfl⟩ := h
  simp only [next?, Option.some.injEq] at hnext
  subst hnext
  split
  · rename_i hc
    subst hc
    have hpairs := hl.concat ⟨hn, .quoted hq hv⟩
    rwa [List.append_assoc, List.append_assoc, List.cons_append]
  · rename_i hc
    exact ⟨l, n, v ++ [c], hl, hn, hq, by simp [hv, Ne.symm hc], by simp⟩

/-- In a bare value one more character of it, a blank, or a slash is read. -/
theorem Led.next_bare (h : Led p .bare) (hbracket : c ≠ '>')
    (hnext : next? offset c .bare = some s') : Led (p ++ [c]) s' := by
  obtain ⟨l, n, v, hl, hn, hne, hv, rfl⟩ := h
  simp only [next?] at hnext
  split at hnext
  · rename_i hc
    obtain rfl := Option.some.inj hnext
    exact ⟨l ++ (n ++ v), [c], hl.concat ⟨hn, .bare hne hv⟩, by simp, isBlankOnly_singleton hc,
      rfl⟩
  · rename_i hblank
    split at hnext
    · obtain rfl := Option.some.inj hnext
      trivial
    · rename_i hslash
      split at hnext
      · cases hnext
      · rename_i hquote
        obtain rfl := Option.some.inj hnext
        exact ⟨l, n, v ++ [c], hl, hn, by simp, by simp_all [isBareChar], by simp⟩

/-- **A character leads from one state to the next.** -/
theorem Led.next (h : Led p s) (hend : c = '>' → finish? offset s = none)
    (hnext : next? offset c s = some s') : Led (p ++ [c]) s' := by
  cases s with
  | between gap => exact h.next_between hnext
  | name => exact h.next_name hnext
  | named => exact h.next_named hnext
  | equals => exact h.next_equals hnext
  | quoted q => exact h.next_quoted hnext
  | bare => exact h.next_bare (fun hc => by cases hend hc) hnext
  | slash at_ =>
    simp only [next?] at hnext
    split at hnext
    · obtain rfl := Option.some.inj hnext
      trivial
    · cases hnext

/-- A tag with content ends behind attributes and blanks. -/
theorem Led.finish {o : Opening} (h : Led p s) (hend : finish? offset s = some o)
    (ho : o.isEmpty = false) : IsInside p ∧ o = ⟨offset, false, offset + 1⟩ := by
  cases s with
  | between gap =>
    obtain rfl := Option.some.inj hend
    cases gap with
    | false => exact ⟨⟨p, [], h, rfl, by simp⟩, rfl⟩
    | true =>
      obtain ⟨l, u, hl, -, hu, rfl⟩ := h
      exact ⟨⟨l, u, hl, hu, rfl⟩, rfl⟩
  | bare =>
    obtain rfl := Option.some.inj hend
    obtain ⟨l, n, v, hl, hn, hne, hv, rfl⟩ := h
    exact ⟨⟨l ++ (n ++ v), [], hl.concat ⟨hn, .bare hne hv⟩, rfl, by simp⟩, rfl⟩
  | slash at_ =>
    obtain rfl := Option.some.inj hend
    cases ho
  | name | named | equals | quoted => cases hend

theorem Led.read {o : Opening} (h : Led p s) (hread : readFrom? offset s t = some (o, r))
    (ho : o.isEmpty = false) :
    ∃ a, t = a ++ '>' :: r ∧ IsInside (p ++ a) ∧
      o = ⟨offset + a.length, false, offset + a.length + 1⟩ := by
  induction t generalizing p s offset with
  | nil => cases hread
  | cons c t ih =>
    rw [readFrom?] at hread
    split at hread
    · rename_i o' hend
      obtain ⟨rfl, rfl⟩ := Prod.mk.inj (Option.some.inj hread)
      split at hend
      · rename_i hc
        obtain ⟨hinside, heq⟩ := h.finish hend ho
        exact ⟨[], by rw [hc]; rfl, by rwa [List.append_nil], heq⟩
      · cases hend
    · rename_i hnone
      split at hread
      · rename_i s' hnext
        obtain ⟨a, rfl, hinside, heq⟩ := ih (h.next (fun hc => by simpa [hc] using hnone) hnext)
          hread
        refine ⟨c :: a, rfl, by simpa using hinside, ?_⟩
        rw [heq, List.length_cons]
        congr 1 <;> omega
      · cases hread

/-! ## 3. What has the form is accepted -/

/-- The ranges of the blanks that are not ASCII. -/
def wideBlanks : List (Nat × Nat) :=
  [(0x85, 0x85), (0xA0, 0xA0), (0x1680, 0x1680), (0x2000, 0x200A), (0x2028, 0x2029),
    (0x202F, 0x202F), (0x205F, 0x205F), (0x3000, 0x3000)]

theorem wordTable_apart :
    (wordTable.all fun (a, b) => wideBlanks.all fun (x, y) => b < x || y < a) = true := by
  simp only [wordTable, CodeTable.ranges, CodeTable.rows, List.flatMap_cons, List.flatMap_nil,
    CodeTable.lineRows]
  -- a line is decoded very slowly by evaluation, so it is made a list of characters first
  repeat rw [String.toList_ofList]
  decide +kernel

/-- A blank is no word character. -/
theorem isWordChar_of_isBlank (hc : isBlank c = true) : isWordChar c = false := by
  simp only [isBlank, Bool.or_eq_true, Bool.and_eq_true, decide_eq_true_eq] at hc
  by_cases hascii : isAscii c = true
  · rw [isWordChar, if_pos hascii]
    have hnarrow : ∀ n ∈ List.range' 9 5 ++ List.range' 28 5, (isAsciiLetter (Char.ofNat n) ||
        isAsciiDigit (Char.ofNat n) || Char.ofNat n = '_') = false := by decide
    simp only [isAscii, decide_eq_true_eq] at hascii
    rw [← Char.ofNat_toNat c]
    refine hnarrow c.toNat ?_
    simp only [List.mem_append, List.mem_range'_1]
    omega
  · rw [isWordChar, if_neg hascii, CodeTable.within, List.any_eq_false]
    obtain ⟨⟨x, y⟩, hwide, hx, hy⟩ : ∃ r ∈ wideBlanks, r.1 ≤ c.toNat ∧ c.toNat ≤ r.2 := by
      simp only [isAscii, decide_eq_true_eq] at hascii
      simp only [wideBlanks, List.mem_cons, List.not_mem_nil, or_false, exists_eq_or_imp,
        exists_eq_left]
      omega
    rintro ⟨a, b⟩ hab
    have hapart := List.all_eq_true.mp (List.all_eq_true.mp wordTable_apart _ hab) _ hwide
    simp only [Bool.or_eq_true, decide_eq_true_eq] at hapart
    simp only [Bool.and_eq_true, decide_eq_true_eq]
    omega

theorem isNameChar_of_isBlank (hc : isBlank c = true) : isNameChar c = false := by
  have hne : c ≠ '-' := fun h => absurd (h ▸ hc) (by decide)
  rw [isNameChar, isWordChar_of_isBlank hc, decide_eq_false hne]
  rfl

/-- Between attributes or behind a bare value: here a tag with content can end. -/
def State.IsEnd : State → Prop
  | .between _ | .bare => True
  | _ => False

/-- Blanks are passed over in front of a value, and behind a name. -/
theorem readFrom?_blanks (hs : s = .between true ∨ s = .named ∨ s = .equals)
    (hu : u.isBlankOnly = true) (t : Text) :
    readFrom? offset s (u ++ t) = readFrom? (offset + u.length) s t := by
  refine readFrom?_stay hu (fun c hc n => ⟨fun h => absurd (h ▸ hc) (by decide), ?_⟩) t
  rcases hs with rfl | rfl | rfl
  · exact if_pos hc
  · exact if_pos hc
  · exact if_pos hc

/-- Blanks lead from where a tag can end to between attributes. -/
theorem readFrom?_gap (hs : s.IsEnd) (hne : u ≠ []) (hu : u.isBlankOnly = true) (t : Text) :
    readFrom? offset s (u ++ t) = readFrom? (offset + u.length) (.between true) t := by
  obtain ⟨c, u, rfl⟩ := List.exists_cons_of_ne_nil hne
  rw [Text.isBlankOnly, List.all_cons, Bool.and_eq_true] at hu
  have hc : c ≠ '>' := fun hc => absurd (hc ▸ hu.1) (by decide)
  have hnext : next? offset c s = some (.between true) := by
    cases s with
    | between | bare => exact if_pos hu.1
    | name | named | equals | quoted | slash => cases hs
  rw [List.cons_append, readFrom?_cons (fun h => absurd h hc) hnext,
    readFrom?_blanks (.inl rfl) hu.2, List.length_cons, Nat.add_assoc, Nat.add_comm 1]

theorem readFrom?_named (hs : s.IsEnd) (hn : IsNamed n) (t : Text) :
    readFrom? offset s (n ++ t) = readFrom? (offset + n.length) .name t := by
  obtain @⟨u, k, hne, hu, hne', hk⟩ := hn
  obtain ⟨c, k, rfl⟩ := List.exists_cons_of_ne_nil hne'
  rw [List.all_cons, Bool.and_eq_true] at hk
  have hblank : isBlank c = false := by
    by_contra h
    rw [isNameChar_of_isBlank (by simpa using h)] at hk
    exact absurd hk.1 Bool.false_ne_true
  have hslash : c ≠ '/' := fun h => absurd (h ▸ hk.1) (by decide)
  have hbracket : c ≠ '>' := fun h => absurd (h ▸ hk.1) (by decide)
  have hnext : ∀ n, next? n c (.between true) = some .name := fun n => by
    rw [next?, if_neg (by simp [hblank]), if_neg hslash, if_pos (by simp [hk.1])]
  rw [List.append_assoc, readFrom?_gap hs hne hu, List.cons_append,
    readFrom?_cons (fun h => absurd h hbracket) (hnext _), readFrom?_key hk.2]
  congr 1
  simp only [List.length_append, List.length_cons]
  omega

/-- Blanks behind a name, and the sign of equality. -/
theorem readFrom?_equals (hu : u.isBlankOnly = true) (t : Text) :
    readFrom? offset .name (u ++ '=' :: t) = readFrom? (offset + (u.length + 1)) .equals t := by
  cases u with
  | nil => exact readFrom?_cons (fun _ => rfl) rfl
  | cons c u =>
    rw [Text.isBlankOnly, List.all_cons, Bool.and_eq_true] at hu
    have hnext : next? offset c .name = some .named := by
      rw [next?, if_neg (by simp [isNameChar_of_isBlank hu.1]), if_pos hu.1]
    have hequals : next? (offset + 1 + u.length) '=' .named = some .equals := rfl
    rw [List.cons_append, readFrom?_cons (fun _ => rfl) hnext,
      readFrom?_blanks (.inr (.inl rfl)) hu.2, readFrom?_cons (fun _ => rfl) hequals]
    congr 1
    simp only [List.length_cons]
    omega

theorem readFrom?_assigned (hs : s.IsEnd) (hn : IsAssigned n) (t : Text) :
    readFrom? offset s (n ++ t) = readFrom? (offset + n.length) .equals t := by
  obtain @⟨k, u, v, hk, hu, hv⟩ := hn
  rw [List.append_assoc, List.append_assoc, List.cons_append, readFrom?_named hs hk,
    readFrom?_equals hu, readFrom?_blanks (.inr (.inr rfl)) hv]
  congr 1
  simp only [List.length_append, List.length_cons]
  omega

theorem readFrom?_value (hv : IsValue v) (t : Text) : ∃ s : State, s.IsEnd ∧
    readFrom? offset .equals (v ++ t) = readFrom? (offset + v.length) s t := by
  cases hv with
  | @quoted q v hq hmem =>
    refine ⟨.between false, trivial, ?_⟩
    have hblank : isBlank q = false := by
      rcases Bool.or_eq_true_iff.mp hq with h | h
      · rw [of_decide_eq_true h]
        decide
      · rw [of_decide_eq_true h]
        decide
    have hnext : next? offset q .equals = some (.quoted q) := by
      rw [next?, if_neg (by simp [hblank]), if_pos hq]
    rw [List.cons_append, List.append_assoc, readFrom?_cons (fun _ => rfl) hnext,
      List.singleton_append, readFrom?_quoted hmem]
    congr 1
    simp only [List.length_append, List.length_cons, List.length_nil]
    omega
  | bare hne hv =>
    refine ⟨.bare, trivial, ?_⟩
    obtain ⟨c, v, rfl⟩ := List.exists_cons_of_ne_nil hne
    have hchar : ∀ d, isBareChar d = true →
        isBlank d = false ∧ d ≠ '/' ∧ d ≠ '>' ∧ isQuote d = false := fun d hd => by
      simpa [isBareChar, and_assoc] using hd
    rw [List.all_cons, Bool.and_eq_true] at hv
    obtain ⟨hblank, hslash, hbracket, hquote⟩ := hchar c hv.1
    have hnext : next? offset c .equals = some .bare := by
      rw [next?, if_neg (by simp [hblank]), if_neg (by simp [hquote]),
        if_neg (by simp [hslash, hbracket])]
    rw [List.cons_append, readFrom?_cons (fun _ => rfl) hnext, readFrom?_stay hv.2 ?_,
      List.length_cons, Nat.add_assoc, Nat.add_comm 1]
    intro d hd n
    obtain ⟨hblank, hslash, hbracket, hquote⟩ := hchar d hd
    refine ⟨fun h => absurd h hbracket, ?_⟩
    rw [next?, if_neg (by simp [hblank]), if_neg hslash, if_neg (by simp [hquote])]

theorem readFrom?_pairs (hs : s.IsEnd) (hl : ArePairs l) (t : Text) : ∃ s' : State, s'.IsEnd ∧
    readFrom? offset s (l ++ t) = readFrom? (offset + l.length) s' t := by
  obtain ⟨ws, hws, rfl⟩ := hl
  induction ws generalizing offset s with
  | nil => exact ⟨s, hs, rfl⟩
  | cons w ws ih =>
    obtain @⟨n, v, hn, hv⟩ := hws w List.mem_cons_self
    obtain ⟨s₁, hs₁, hread⟩ : ∃ s₁ : State, s₁.IsEnd ∧
        readFrom? (offset + n.length) .equals (v ++ (ws.flatten ++ t)) =
          readFrom? (offset + n.length + v.length) s₁ (ws.flatten ++ t) :=
      readFrom?_value hv _
    obtain ⟨s₂, hs₂, hread'⟩ : ∃ s₂ : State, s₂.IsEnd ∧
        readFrom? (offset + n.length + v.length) s₁ (ws.flatten ++ t) =
          readFrom? (offset + n.length + v.length + ws.flatten.length) s₂ t :=
      ih hs₁ fun w hw => hws w (List.mem_cons_of_mem _ hw)
    refine ⟨s₂, hs₂, ?_⟩
    rw [List.flatten_cons, List.append_assoc, List.append_assoc, readFrom?_assigned hs hn, hread,
      hread']
    congr 1
    simp only [List.length_append]
    omega

/-- **The machine reads to the bracket of a tag with content exactly what has the form.** -/
theorem read?_iff {o : Opening} : read? t = some (o, r) ∧ o.isEmpty = false ↔
    ∃ a, IsInside a ∧ t = a ++ '>' :: r ∧ o = ⟨a.length, false, a.length + 1⟩ := by
  constructor
  · rintro ⟨hread, ho⟩
    have hled : Led [] (.between false) := ⟨[], by simp, rfl⟩
    obtain ⟨a, rfl, hinside, heq⟩ := hled.read hread ho
    exact ⟨a, hinside, rfl, by simpa using heq⟩
  · rintro ⟨_, ⟨l, u, hl, hu, rfl⟩, rfl, rfl⟩
    refine ⟨?_, rfl⟩
    have hbetween : (State.between false).IsEnd := trivial
    obtain ⟨s, hs, hread⟩ : ∃ s : State, s.IsEnd ∧
        readFrom? 0 (.between false) (l ++ (u ++ '>' :: r)) =
          readFrom? (0 + l.length) s (u ++ '>' :: r) := readFrom?_pairs hbetween hl _
    have hend : ∀ {s : State} {n : Nat}, s.IsEnd →
        readFrom? n s ('>' :: r) = some (⟨n, false, n + 1⟩, r) := by
      intro s n hs
      cases s with
      | between | bare => rfl
      | name | named | equals | quoted | slash => cases hs
    rw [read?, List.append_assoc, hread]
    rcases List.eq_nil_or_concat u with rfl | ⟨u', c, rfl⟩
    · simpa using hend hs
    · rw [readFrom?_gap hs (by simp) hu, hend (s := .between true) trivial]
      simp [Nat.add_assoc]

end Opening
end CiteMarkup
