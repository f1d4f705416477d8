import CiteMarkup.Proofs.Template.Split
import CiteMarkup.Proofs.Template.Found
/-!
# Invocations in the places of others

An invocation that is found has its braces to itself (`IsBlock`), so another one can stand in its
place: whatever is read in front of it is read as before, also two braces that nothing closes
(`Quiet.swap`).  A page is therefore made of gaps, in which nothing is found, and of such blocks
(`exists_weave`), and it stays so if other blocks are put between the gaps (`IsWoven.swap`).
-/

namespace CiteMarkup

variable {wanted : Text → Bool} {n m k : Nat} {b : Bool} {t u v name inner rest rest' : Text}

/-! ## 1. Braces -/

/-- Where more is open outside, what is open inside does not matter. -/
theorem braceDepth_add (h : braceDepth n b u = some m) (k : Nat) :
    braceDepth (n + k) b u = some (m + k) := by
  induction u generalizing n b with
  | nil =>
    cases b with
    | true => cases h
    | false =>
      obtain rfl := Option.some.inj h
      rfl
  | cons c r ih =>
    cases b with
    | true => exact ih h
    | false =>
      rcases braceDepth_cases h with ⟨hc, hr, h⟩ | ⟨hc, hr, hn, h⟩ | ⟨hopen, hclose, h⟩
      · rw [braceDepth_of_open hc hr, Nat.add_right_comm]
        exact ih h
      · rw [braceDepth_of_close hc hr (by omega), show n + k - 1 = n - 1 + k by omega]
        exact ih h
      · rw [braceDepth_of_neither hopen hclose]
        exact ih h

/-- What is done with a character in front of the braces that balance a text. -/
theorem balancedLength?_cases {c : Char} {r : Text}
    (h : balancedLength? (n + 1) false (c :: r) = some k) :
    (c = '{' ∧ r.head? = some '{' ∧ (balancedLength? (n + 2) true r).map (· + 1) = some k) ∨
      (c = '}' ∧ r.head? = some '}' ∧ n = 0 ∧ k = 2) ∨
      (c = '}' ∧ r.head? = some '}' ∧ n ≠ 0 ∧ (balancedLength? n true r).map (· + 1) = some k) ∨
      (¬ (c = '{' ∧ r.head? = some '{') ∧ ¬ (c = '}' ∧ r.head? = some '}') ∧
        (balancedLength? (n + 1) false r).map (· + 1) = some k) := by
  rw [balancedLength?] at h
  simp only [Bool.and_eq_true, decide_eq_true_eq] at h
  split at h
  · rename_i hopen
    exact .inl ⟨hopen.1, hopen.2, h⟩
  split at h
  · rename_i hclose
    split at h
    · exact .inr (.inl ⟨hclose.1, hclose.2, by omega, (Option.some.inj h).symm⟩)
    · exact .inr (.inr (.inl ⟨hclose.1, hclose.2, by omega, h⟩))
  · rename_i hopen hclose
    exact .inr (.inr (.inr ⟨hopen, hclose, h⟩))

/-- In front of the braces that balance a text the braces balance. -/
theorem exists_of_balancedLength? (h : balancedLength? (n + 1) b t = some k) :
    ∃ inner v, t = inner ++ '}' :: '}' :: v ∧ k = inner.length + 2 ∧
      braceDepth n b inner = some 0 := by
  induction t generalizing n b k with
  | nil => cases b <;> cases h
  | cons c r ih =>
    -- the reading goes on behind this character
    have later : ∀ {n' : Nat} {b' : Bool}, (balancedLength? (n' + 1) b' r).map (· + 1) = some k →
        (∀ inner v, r = inner ++ '}' :: '}' :: v → braceDepth n' b' inner = some 0 →
          braceDepth n b (c :: inner) = some 0) →
        ∃ inner v, c :: r = inner ++ '}' :: '}' :: v ∧ k = inner.length + 2 ∧
          braceDepth n b inner = some 0 := by
      intro n' b' hk hdepth
      obtain ⟨j, hj, rfl⟩ := Option.map_eq_some_iff.mp hk
      obtain ⟨inner, v, rfl, rfl, hinner⟩ := ih hj
      exact ⟨c :: inner, v, rfl, by rw [List.length_cons], hdepth inner v rfl hinner⟩
    cases b with
    | true => exact later h fun inner v _ hinner => hinner
    | false =>
      -- what stands behind the character is the same with and without the closing braces
      have hhead : ∀ {inner v : Text} {d : Char}, r = inner ++ '}' :: '}' :: v →
          (r.head? = some d ↔ inner.head? = some d ∨ inner = [] ∧ d = '}') := by
        rintro inner v d rfl
        cases inner with
        | nil => simp [eq_comm]
        | cons e inner => simp
      rcases balancedLength?_cases h with ⟨rfl, hr, h⟩ | ⟨rfl, hr, rfl, rfl⟩ | ⟨rfl, hr, hn, h⟩ |
        ⟨hopen, hclose, h⟩
      · refine later h ?_
        intro inner v heq hinner
        have hfirst : inner.head? = some '{' := by simpa using (hhead heq).mp hr
        rwa [braceDepth_of_open rfl hfirst]
      · obtain ⟨v, rfl⟩ := List.head?_eq_some_iff.mp hr
        exact ⟨[], v, rfl, rfl, rfl⟩
      · obtain ⟨n, rfl⟩ : ∃ n', n = n' + 1 := ⟨n - 1, by omega⟩
        refine later h ?_
        intro inner v heq hinner
        -- the second brace is one of the inner text
        have hne : inner ≠ [] := by
          rintro rfl
          cases hinner
        have hfirst : inner.head? = some '}' := by simpa [hne] using (hhead heq).mp hr
        rwa [braceDepth_of_close rfl hfirst (by omega)]
      · refine later h ?_
        intro inner v heq hinner
        rw [braceDepth_of_neither]
        · exact hinner
        · exact fun hpair => hopen ⟨hpair.1, (hhead heq).mpr (.inl hpair.2)⟩
        · rintro ⟨hc, hpair | hnil⟩
          · exact hclose ⟨hc, (hhead heq).mpr (.inl hpair)⟩
          · exact hclose ⟨hc, (hhead heq).mpr (.inr ⟨hnil, rfl⟩)⟩

/-! ## 2. Blocks -/

/-- A text that is found as an invocation, whatever stands behind it: the name is wanted, and the
braces between the name and the end balance. -/
structure IsBlock (wanted : Text → Bool) (name inner t : Text) : Prop where
  text : t = templateText name inner
  plain : ∀ c ∈ name, isNameChar c = true
  wanted : wanted (canonicalName (name.filter (· ≠ veil))) = true
  inner : IsInner inner

namespace IsBlock

/-- The heading of a block. -/
theorem announces (h : IsBlock wanted name inner t) (rest : Text) :
    Announces wanted name (inner ++ '}' :: '}' :: rest) (t ++ rest) := by
  refine ⟨?_, h.plain, ?_, h.wanted⟩
  · rw [h.text]
    simp [templateText]
  · cases inner with
    | nil => exact .inr ⟨rest, rfl⟩
    | cons c r =>
      obtain rfl := h.inner.head c rfl
      exact .inl ⟨_, rfl⟩

/-- **A block is found, whatever stands behind it.** -/
theorem rule_eq (h : IsBlock wanted name inner t) (rest : Text) :
    invocationRule wanted (t ++ rest) = .found t.length ⟨name.length, !inner.isEmpty⟩ := by
  refine invocationRule_eq_found_iff.mpr ⟨name, _, h.announces rest, ?_, ?_⟩
  · cases inner with
    | nil => rfl
    | cons c r =>
      obtain rfl := h.inner.head c rfl
      rfl
  · rw [h.text]
    exact balancedLength?_written h.plain h.inner rest

theorem splits (h : IsBlock wanted name inner t) : Splits (invocationRule wanted) t ∧
    scan (fun _ => invocationRule wanted) t =
      [⟨Span.ofLength 0 t.length, ⟨name.length, !inner.isEmpty⟩⟩] := by
  have hne : t ≠ [] := by
    rw [h.text]
    simp [templateText]
  have hsplits := Splits.of_verdict _ hne rfl
    (fun rest => by rw [List.nil_append]; exact h.rule_eq rest) Splits.nil
  simpa [scan, scanFrom, Verdict.findings] using hsplits

/-- A block inside of something that is open does not matter to it. -/
theorem balancedLength? (h : IsBlock wanted name inner t) (hn : 1 ≤ n) (rest : Text) :
    balancedLength? n false (t ++ rest) = (balancedLength? n false rest).map (· + t.length) := by
  have hbraces := balancedLength?_of_braceDepth (braceDepth_add h.inner.braces n)
    (v := '}' :: '}' :: rest) (by simp)
  have hclosing : CiteMarkup.balancedLength? (n + 1) false ('}' :: '}' :: rest) =
      (CiteMarkup.balancedLength? n false rest).map (· + 2) := by
    rw [CiteMarkup.balancedLength?]
    simp [Nat.not_le.mpr (Nat.lt_succ_of_le hn), CiteMarkup.balancedLength?, Function.comp_def]
  rw [Nat.zero_add] at hbraces
  rw [(h.announces rest).text, CiteMarkup.balancedLength?, if_pos (by simp),
    CiteMarkup.balancedLength?, balancedLength?_append h.plain, hbraces, hclosing,
    h.text, length_templateText]
  simp only [Option.map_map]
  congr 1
  funext x
  simp only [Function.comp_apply]
  omega

theorem head? (h : IsBlock wanted name inner t) (rest : Text) :
    (t ++ rest).head? = some '{' := by
  rw [(h.announces rest).text]
  rfl

end IsBlock

/-- What is found is a block. -/
theorem exists_isBlock {hd : Heading} (h : invocationRule wanted t = .found n hd) :
    ∃ name inner u v, t = u ++ v ∧ IsBlock wanted name inner u ∧ n = u.length ∧
      hd = ⟨name.length, !inner.isEmpty⟩ := by
  obtain ⟨name, rest, ha, hhd, hn⟩ := invocationRule_eq_found_iff.mp h
  have hn' := hn
  rw [ha.text, balancedLength?, if_pos (by simp), balancedLength?,
    balancedLength?_append ha.plain] at hn'
  simp only [Option.map_map, Option.map_eq_some_iff] at hn'
  obtain ⟨j, hj, -⟩ := hn'
  obtain ⟨inner, v, hrest, -, hinner⟩ := exists_of_balancedLength? hj
  have htext : t = templateText name inner ++ v := by
    rw [ha.text, hrest]
    simp [templateText]
  have hhead : ∀ c ∈ inner.head?, c = '|' := by
    intro c hc
    obtain ⟨r, rfl⟩ : ∃ r, inner = c :: r := List.head?_eq_some_iff.mp hc
    rcases ha.sign with ⟨r', hr'⟩ | ⟨r', hr'⟩
    · rw [hr'] at hrest
      exact (List.cons.inj hrest).1.symm
    · -- a brace in front would be one too many
      rw [hr'] at hrest
      obtain ⟨rfl, hnext⟩ := List.cons.inj hrest
      cases r with
      | nil => simp [braceDepth] at hinner
      | cons d r =>
        have hd : '}' = d := (List.cons.inj hnext).1
        simp [braceDepth, ← hd] at hinner
  have hblock : IsBlock wanted name inner (templateText name inner) :=
    ⟨rfl, ha.plain, ha.wanted, hhead, hinner⟩
  have hrule := hblock.rule_eq v
  rw [← htext, h] at hrule
  obtain ⟨rfl, rfl⟩ : n = (templateText name inner).length ∧
      hd = ⟨name.length, !inner.isEmpty⟩ := by simpa using hrule
  exact ⟨name, inner, _, v, htext, hblock, rfl, rfl⟩

/-! ## 3. Gaps -/

/-- Nothing is found in a text in front of another one, and the reading comes to its end. -/
inductive Quiet (wanted : Text → Bool) (rest : Text) : Text → Prop
  | nil : Quiet wanted rest []
  | pass {c : Char} {g : Text} (h : Text.startsWith (c :: (g ++ rest)) ['{', '{'] = false)
      (hg : Quiet wanted rest g) : Quiet wanted rest (c :: g)
  | jump {g : Text} (h : invocationRule wanted ('{' :: '{' :: (g ++ rest)) = .jump 2)
      (hg : Quiet wanted rest g) : Quiet wanted rest ('{' :: '{' :: g)

theorem startsWith_braces {t : Text} (h : Text.startsWith t ['{', '{'] = true) :
    ∃ r, t = '{' :: '{' :: r := by
  obtain ⟨r, rfl⟩ := List.isPrefixOf_iff_prefix.mp h
  exact ⟨r, rfl⟩

theorem startsWith_braces_congr (c : Char) {r r' : Text} (h : r.head? = r'.head?) :
    Text.startsWith (c :: r) ['{', '{'] = Text.startsWith (c :: r') ['{', '{'] := by
  cases r with
  | nil =>
    obtain rfl : r' = [] := List.head?_eq_none_iff.mp h.symm
    rfl
  | cons d r =>
    obtain ⟨r', rfl⟩ := List.head?_eq_some_iff.mp h.symm
    simp [Text.startsWith, List.isPrefixOf]

/-- The three verdicts about a place. -/
theorem invocationRule_cases (wanted : Text → Bool) (t : Text) :
    (Text.startsWith t ['{', '{'] = false ∧ invocationRule wanted t = .pass) ∨
      (∃ r, t = '{' :: '{' :: r ∧ invocationRule wanted t = .jump 2) ∨
        ∃ n hd, invocationRule wanted t = .found n hd := by
  cases hs : Text.startsWith t ['{', '{'] with
  | false =>
    refine .inl ⟨rfl, ?_⟩
    rw [invocationRule, hs]
    rfl
  | true =>
    obtain ⟨r, rfl⟩ := startsWith_braces hs
    right
    rw [invocationRule, if_pos hs]
    split
    · exact .inl ⟨r, rfl, rfl⟩
    · split
      · split
        · exact .inr ⟨_, _, rfl⟩
        · exact .inl ⟨r, rfl, rfl⟩
      · exact .inl ⟨r, rfl, rfl⟩

/-- What stands behind such a text is read by itself. -/
theorem Quiet.scan_eq {g : Text} (h : Quiet wanted rest g) :
    scan (fun _ => invocationRule wanted) (g ++ rest) =
      (scan (fun _ => invocationRule wanted) rest).map (Found.shift g.length) := by
  induction h with
  | nil =>
    have hid : Found.shift (α := Heading) 0 = id := funext Found.shift_zero
    simp [hid]
  | @pass c g h hg ih =>
    have hrule : invocationRule wanted ([c] ++ (g ++ rest)) = .pass := by
      rw [List.singleton_append, invocationRule, h]
      rfl
    have hscan : scan (fun _ => invocationRule wanted) ([c] ++ (g ++ rest)) = _ :=
      scan_append_of_length (by simp) (by rw [hrule]; rfl)
    rw [hrule, ih, List.map_map] at hscan
    rw [List.cons_append, ← List.singleton_append, hscan]
    simp [Verdict.findings, Function.comp_def, Nat.add_comm]
  | @jump g h hg ih =>
    have hscan : scan (fun _ => invocationRule wanted) (['{', '{'] ++ (g ++ rest)) = _ :=
      scan_append_of_length (by simp) (by rw [List.cons_append, List.singleton_append, h]; rfl)
    rw [List.cons_append, List.singleton_append, h, ih, List.map_map] at hscan
    have hplace : ∀ f : Found Heading, f.shift (2 + g.length) = f.shift (g.length + 2) := by
      intro f
      rw [Nat.add_comm]
    rw [List.cons_append, List.cons_append, hscan]
    simp [Verdict.findings, Function.comp_def, hplace]

/-- **What stands in front of the first finding is a gap.** -/
theorem exists_quiet {f : Found Heading} {fs : List (Found Heading)}
    (h : scan (fun _ => invocationRule wanted) t = f :: fs) :
    ∃ g rest n hd, t = g ++ rest ∧ Quiet wanted rest g ∧ invocationRule wanted rest = .found n hd ∧
      f = ⟨Span.ofLength g.length n, hd⟩ ∧
      fs =
        (scan (fun _ => invocationRule wanted) (rest.drop n)).map (Found.shift (g.length + n)) := by
  induction hlength : t.length using Nat.strongRecOn generalizing t f fs with
  | ind length ih =>
  -- the first finding lies behind some characters `w` that begin nothing
  have later : ∀ {w r : Text}, w ≠ [] → t = w ++ r →
      (invocationRule wanted t).length = w.length → (invocationRule wanted t).findings = [] →
      (∀ {g rest : Text}, r = g ++ rest → Quiet wanted rest g → Quiet wanted rest (w ++ g)) →
      ∃ g rest n hd, t = g ++ rest ∧ Quiet wanted rest g ∧
        invocationRule wanted rest = .found n hd ∧ f = ⟨Span.ofLength g.length n, hd⟩ ∧
        fs = (scan (fun _ => invocationRule wanted) (rest.drop n)).map
          (Found.shift (g.length + n)) := by
    rintro w r hw rfl hlen hnone hquiet
    have hscan := scan_append_of_length hw hlen
    rw [h, hnone, List.nil_append] at hscan
    have hpos := List.length_pos_of_ne_nil hw
    rw [List.length_append] at hlength
    cases hr : scan (fun _ => invocationRule wanted) r with
    | nil =>
      rw [hr] at hscan
      cases hscan
    | cons f' fs' =>
      rw [hr, List.map_cons] at hscan
      obtain ⟨rfl, rfl⟩ := List.cons.inj hscan
      obtain ⟨g, rest, n, hd, rfl, hg, hrule, rfl, rfl⟩ := ih r.length (by omega) hr rfl
      refine ⟨w ++ g, rest, n, hd, (List.append_assoc _ _ _).symm, hquiet rfl hg, hrule, ?_, ?_⟩
      · simp [Found.shift, Span.shift, Span.ofLength, Nat.add_assoc]
      · simp [Function.comp_def, Nat.add_assoc]
  rcases invocationRule_cases wanted t with ⟨hs, hrule⟩ | ⟨r, rfl, hrule⟩ | ⟨n, hd, hrule⟩
  · cases t with
    | nil => cases h
    | cons c r =>
      refine later (w := [c]) (by simp) rfl (by rw [hrule]; rfl) (by rw [hrule]; rfl) ?_
      rintro g rest rfl hg
      exact .pass hs hg
  · refine later (w := ['{', '{']) (by simp) rfl (by rw [hrule]; rfl) (by rw [hrule]; rfl) ?_
    rintro g rest rfl hg
    exact .jump hrule hg
  · obtain ⟨name, inner, u, v, rfl, hu, rfl, -⟩ := exists_isBlock hrule
    have hne : u ≠ [] := by
      rw [hu.text]
      simp [templateText]
    have hscan : scan (fun _ => invocationRule wanted) (u ++ v) = _ :=
      scan_append_of_length hne (by rw [hrule]; rfl)
    rw [h, hrule] at hscan
    obtain ⟨rfl, rfl⟩ := List.cons.inj hscan
    exact ⟨[], u ++ v, _, hd, rfl, .nil, hrule, rfl, by rw [List.drop_left]; simp⟩

/-- Another text can stand in the place of a text, whatever is open in front of it: both begin with
a brace, and both close as much. -/
structure StandsFor (t t' : Text) : Prop where
  head : t.head? = some '{'
  head' : t'.head? = some '{'
  closes : ∀ n, 1 ≤ n → ((balancedLength? n false t).isSome ↔ (balancedLength? n false t').isSome)

theorem StandsFor.head?_append (h : StandsFor rest rest') (g : Text) :
    (g ++ rest).head? = (g ++ rest').head? := by
  cases g with
  | nil => exact h.head.trans h.head'.symm
  | cons c r => rfl

namespace Quiet

variable {g : Text}

/-- Pairs of braces in a gap are read alike in front of both texts. -/
theorem closes (h : Quiet wanted rest g) (hrest : StandsFor rest rest') (n : Nat) (b : Bool)
    (hn : 1 ≤ n) (hb : b = true → g.head? = some '}') :
    (balancedLength? n b (g ++ rest)).isSome ↔ (balancedLength? n b (g ++ rest')).isSome := by
  induction h generalizing n b with
  | nil =>
    cases b with
    | true => cases hb rfl
    | false => exact hrest.closes n hn
  | @pass c g h hg ih =>
    rw [List.cons_append, List.cons_append]
    cases b with
    | true =>
      rw [balancedLength?, balancedLength?, Option.isSome_map, Option.isSome_map]
      exact ih n false hn (by simp)
    | false =>
      have hopen : ¬ (c = '{' && (g ++ rest).head? = some '{') = true := by
        intro hopen
        simp only [Bool.and_eq_true, decide_eq_true_eq] at hopen
        obtain ⟨r, hr⟩ := List.head?_eq_some_iff.mp hopen.2
        rw [hopen.1, hr] at h
        cases h
      rw [balancedLength?, balancedLength?, ← hrest.head?_append g, if_neg hopen, if_neg hopen]
      split
      · rename_i hclose
        split
        · rfl
        · rw [Option.isSome_map, Option.isSome_map]
          refine ih (n - 1) true (by omega) fun _ => ?_
          -- the second brace is in the gap, since none begins what stands behind it
          simp only [Bool.and_eq_true, decide_eq_true_eq] at hclose
          cases g with
          | nil => exact absurd (hrest.head.symm.trans hclose.2) (by decide)
          | cons d g => exact hclose.2
      · rw [Option.isSome_map, Option.isSome_map]
        exact ih n false hn (by simp)
  | @jump g h hg ih =>
    cases b with
    | true => cases hb rfl
    | false =>
      simp only [List.cons_append, balancedLength?, List.head?_cons, decide_true, Bool.and_self,
        if_true, Option.isSome_map]
      exact ih (n + 1) false (by omega) (by simp)

/-- **A gap stays one** if another text stands behind it. -/
theorem swap (h : Quiet wanted rest g) (hrest : StandsFor rest rest') : Quiet wanted rest' g := by
  induction h with
  | nil => exact .nil
  | @pass c g h hg ih =>
    refine .pass ?_ ih
    rwa [← startsWith_braces_congr c (hrest.head?_append g)]
  | @jump g h hg ih =>
    refine .jump ?_ ih
    rcases invocationRule_cases wanted ('{' :: '{' :: (g ++ rest')) with
      ⟨hs, -⟩ | ⟨r, -, hrule⟩ | ⟨n, hd, hrule⟩
    · cases hs
    · exact hrule
    · -- what is found there is found in front of the old text as well
      exfalso
      obtain ⟨name, r, ha, -, hn⟩ := invocationRule_eq_found_iff.mp hrule
      obtain ⟨r', hr'⟩ := List.head?_eq_some_iff.mp hrest.head'
      have hname : g ++ rest' = name ++ r := by simpa using ha.text
      obtain ⟨x, rfl, rfl⟩ : ∃ x, g = name ++ x ∧ r = x ++ rest' := by
        rcases List.append_eq_append_iff.mp hname with ⟨y, rfl, hy⟩ | ⟨x, rfl, rfl⟩
        · cases y with
          | nil => exact ⟨[], by simp, by simpa using hy.symm⟩
          | cons c y =>
            rw [hr'] at hy
            obtain ⟨rfl, -⟩ := List.cons.inj hy
            exact absurd (ha.plain '{' (by simp)) (by decide)
        · exact ⟨x, rfl, rfl⟩
      have hsign : (∃ r, x ++ rest = '|' :: r) ∨ ∃ r, x ++ rest = '}' :: '}' :: r := by
        rw [hr'] at ha
        match x with
        | [] => rcases ha.sign with ⟨_, hs⟩ | ⟨_, hs⟩ <;> cases hs
        | [c] =>
          rcases ha.sign with ⟨_, hs⟩ | ⟨_, hs⟩
          · obtain ⟨rfl, -⟩ := List.cons.inj hs
            exact .inl ⟨rest, rfl⟩
          · cases (List.cons.inj (List.cons.inj hs).2).1
        | c :: d :: x =>
          rcases ha.sign with ⟨_, hs⟩ | ⟨_, hs⟩
          · obtain ⟨rfl, -⟩ := List.cons.inj hs
            exact .inl ⟨_, rfl⟩
          · obtain ⟨rfl, hnext⟩ := List.cons.inj hs
            obtain rfl : d = '}' := (List.cons.inj hnext).1
            exact .inr ⟨_, rfl⟩
      have hold : Announces wanted name (x ++ rest) ('{' :: '{' :: (name ++ x ++ rest)) :=
        ⟨by simp, ha.plain, hsign, ha.wanted⟩
      have hsome : (balancedLength? 0 false ('{' :: '{' :: (name ++ x ++ rest))).isSome := by
        have hclosed := (hg.closes hrest 1 false (Nat.le_refl 1) (by simp)).mpr
        simp only [balancedLength?, List.head?_cons, decide_true, Bool.and_self, if_true] at hn ⊢
        rw [Option.isSome_map, Option.isSome_map]
        refine hclosed ?_
        rw [← Option.isSome_map, ← Option.isSome_map, hn]
        rfl
      obtain ⟨n', hn'⟩ := Option.isSome_iff_exists.mp hsome
      have hfound := invocationRule_eq_found_iff.mpr ⟨name, _, hold, rfl, hn'⟩
      rw [h] at hfound
      cases hfound

end Quiet

end CiteMarkup
