import CiteMarkup.Proofs.Page.Veil
import CiteMarkup.Proofs.Template.Hidden
/-!
# What is found as an invocation

An invocation is found by a reading that counts pairs of braces from left to right and that goes on
in three ways: behind two braces that begin nothing wanted, behind two that nothing closes, and
behind an invocation.  This file says what comes of it without the reading: the count of pairs
(`braceBalance`) is zero at the end of an invocation and above zero at every place inside, the
parameters cover what stands between the name and the closing braces (`Tiles`), and no invocation
is missed (`Page.Announced`).

The main result is `templatesWhere_found`.
-/

namespace CiteMarkup

variable {t name rest : Text} {wanted : Text → Bool}

/-! ## 1. The count of braces -/

/-- Openings less closings among the pairs of braces of a text, read from left to right; `inPair`
says that the first character is the second one of a pair. -/
def braceBalance : (inPair : Bool) → Text → Int
  | _, [] => 0
  | true, _ :: r => braceBalance false r
  | false, c :: r =>
    if c = '{' && r.head? = some '{' then braceBalance true r + 1
    else if c = '}' && r.head? = some '}' then braceBalance true r - 1
    else braceBalance false r

/-- A single character is no pair. -/
theorem braceBalance_take_one (b : Bool) (t : Text) : braceBalance b (t.take 1) = 0 := by
  cases t <;> cases b <;> simp [braceBalance]

/-- A pair counts as soon as it stands in the text whole. -/
theorem braceBalance_take (c : Char) (r : Text) (k : Nat) :
    braceBalance false ((c :: r).take (k + 2)) =
      if c = '{' && r.head? = some '{' then braceBalance true (r.take (k + 1)) + 1
      else if c = '}' && r.head? = some '}' then braceBalance true (r.take (k + 1)) - 1
      else braceBalance false (r.take (k + 1)) := by
  have hhead : (r.take (k + 1)).head? = r.head? := by cases r <;> rfl
  rw [List.take_succ_cons, braceBalance, hhead]

/-- What the count says about the end of a text that has `open_` pairs open in front of it: it is
above zero up to there, and everywhere if there is no end. -/
def ClosesAt (open_ : Nat) (inPair : Bool) (t : Text) : Option Nat → Prop
  | some n => open_ + braceBalance inPair (t.take n) = 0 ∧
      ∀ k < n, 0 < open_ + braceBalance inPair (t.take k)
  | none => ∀ k, 0 < open_ + braceBalance inPair (t.take k)

/-- The count goes on behind a character, with `open'` pairs open. -/
theorem ClosesAt.cons {open_ open' : Nat} {inPair pair : Bool} {c : Char} {r : Text}
    {end_ : Option Nat} (hopen : 1 ≤ open_) (hopen' : 1 ≤ open')
    (hstep : ∀ k, (open_ : Int) + braceBalance inPair ((c :: r).take (k + 2)) =
      open' + braceBalance pair (r.take (k + 1)))
    (h : ClosesAt open' pair r end_) : ClosesAt open_ inPair (c :: r) (end_.map (· + 1)) := by
  -- nothing has been counted at the first two places
  have habove : ∀ k, (∀ j, k = j + 2 → 0 < (open' : Int) + braceBalance pair (r.take (j + 1))) →
      0 < (open_ : Int) + braceBalance inPair ((c :: r).take k) := by
    intro k hk
    match k with
    | 0 =>
      rw [List.take_zero, braceBalance]
      omega
    | 1 =>
      rw [braceBalance_take_one]
      omega
    | j + 2 =>
      rw [hstep]
      exact hk j rfl
  cases end_ with
  | none => exact fun k => habove k fun j _ => h (j + 1)
  | some n =>
    obtain ⟨hzero, hn⟩ := h
    cases n with
    | zero =>
      rw [List.take_zero, braceBalance] at hzero
      omega
    | succ n => exact ⟨by rw [hstep, hzero], fun k hk => habove k fun j hj => hn _ (by
      simp only at hk
      omega)⟩

/-- **The braces balance where the count comes down to zero.** -/
theorem closesAt_balancedLength? (t : Text) {open_ : Nat} (hopen : 1 ≤ open_) (inPair : Bool) :
    ClosesAt open_ inPair t (balancedLength? open_ inPair t) := by
  induction t generalizing open_ inPair with
  | nil =>
    rw [balancedLength?]
    intro k
    rw [List.take_nil, braceBalance]
    omega
  | cons c r ih =>
    cases inPair with
    | true =>
      rw [balancedLength?]
      exact (ih hopen false).cons hopen hopen fun k => by rw [List.take_succ_cons, braceBalance]
    | false =>
      rw [balancedLength?]
      split
      · rename_i hpair
        refine (ih (Nat.succ_pos _) true).cons hopen (Nat.succ_pos _) fun k => ?_
        rw [braceBalance_take, if_pos hpair]
        omega
      · rename_i hno
        split
        · rename_i hpair
          split
          · -- the last pair that is open is closed
            obtain rfl : open_ = 1 := by omega
            simp only [Bool.and_eq_true, decide_eq_true_eq] at hpair
            obtain ⟨rfl, hr⟩ := hpair
            obtain ⟨v, rfl⟩ : ∃ v, r = '}' :: v := by
              cases r with
              | nil => cases hr
              | cons d v => exact ⟨v, by rw [Option.some.inj hr]⟩
            refine ⟨by simp [braceBalance], fun k hk => ?_⟩
            obtain rfl | rfl : k = 0 ∨ k = 1 := by omega
            · rw [List.take_zero, braceBalance]
              decide
            · rw [braceBalance_take_one]
              decide
          · have hclosed : 1 ≤ open_ - 1 := by omega
            refine (ih hclosed true).cons hopen hclosed fun k => ?_
            rw [braceBalance_take, if_neg hno, if_pos hpair]
            omega
        · rename_i hno'
          refine (ih hopen false).cons hopen hopen fun k => ?_
          rw [braceBalance_take, if_neg hno, if_neg hno']

/-- **An opening pair is closed where the count is zero again**, and above zero in between. -/
theorem closes_of_opening (r : Text) :
    match balancedLength? 0 false ('{' :: '{' :: r) with
    | some n => braceBalance false (('{' :: '{' :: r).take n) = 0 ∧
        ∀ k, 2 ≤ k → k < n → 0 < braceBalance false (('{' :: '{' :: r).take k)
    | none => ∀ k, 2 ≤ k → 0 < braceBalance false (('{' :: '{' :: r).take k) := by
  have hlength : balancedLength? 0 false ('{' :: '{' :: r) =
      (balancedLength? 1 false r).map (· + 2) := by
    simp [balancedLength?, Function.comp_def]
  have hcount : ∀ k, braceBalance false (('{' :: '{' :: r).take (k + 2)) =
      1 + braceBalance false (r.take k) := fun k => by
    simp [braceBalance, Int.add_comm]
  have h := closesAt_balancedLength? r (Nat.le_refl 1) false
  -- behind the pair the count is that of the rest
  have hat : ∀ k, 2 ≤ k → braceBalance false (('{' :: '{' :: r).take k) =
      1 + braceBalance false (r.take (k - 2)) := fun k hk => by
    rw [← hcount, Nat.sub_add_cancel hk]
  rw [hlength]
  cases hn : balancedLength? 1 false r with
  | none =>
    rw [hn] at h
    exact fun k hk => by rw [hat k hk]; exact h (k - 2)
  | some n =>
    rw [hn] at h
    obtain ⟨hzero, habove⟩ := h
    refine ⟨by rw [hcount]; exact hzero, fun k hk hlt => ?_⟩
    change k < n + 2 at hlt
    rw [hat k hk]
    exact habove (k - 2) (by omega)

/-! ## 2. Headings -/

/-- A text begins with the heading of a wanted invocation: two braces, the name, and a bar or two
closing braces.  What is veiled in the name does not count. -/
structure Announces (wanted : Text → Bool) (name rest t : Text) : Prop where
  text : t = '{' :: '{' :: (name ++ rest)
  plain : ∀ c ∈ name, isNameChar c = true
  sign : (∃ r, rest = '|' :: r) ∨ ∃ r, rest = '}' :: '}' :: r
  wanted : wanted (canonicalName (name.filter (· ≠ veil))) = true

theorem Announces.heading?_eq (h : Announces wanted name rest t) :
    heading? t = some ⟨name.length, rest.head? = some '|'⟩ := by
  have hafter : after? ['{', '{'] t = some (name ++ rest) := by
    rw [h.text]
    rfl
  have hstop : rest.takeWhile isNameChar = [] := by
    rcases h.sign with ⟨r, rfl⟩ | ⟨r, rfl⟩ <;> rw [List.takeWhile_cons_of_neg (by decide)]
  have htake : (name ++ rest).takeWhile isNameChar = name := by
    rw [List.takeWhile_append_of_pos h.plain, hstop, List.append_nil]
  rw [heading?, hafter, Option.bind_eq_bind, Option.bind_some]
  simp only [htake, List.drop_left]
  rcases h.sign with ⟨r, rfl⟩ | ⟨r, rfl⟩ <;> rfl

/-- **What the rule for invocations finds**: a heading of a wanted one, if its pair of braces is
closed. -/
theorem invocationRule_eq_found_iff {n : Nat} {h : Heading} :
    invocationRule wanted t = .found n h ↔
      ∃ name rest, Announces wanted name rest t ∧ h = ⟨name.length, rest.head? = some '|'⟩ ∧
        balancedLength? 0 false t = some n := by
  constructor
  · intro hr
    unfold invocationRule at hr
    split at hr
    case isFalse => cases hr
    split at hr
    case h_1 => cases hr
    rename_i h' hh
    split at hr
    case isFalse => cases hr
    rename_i hw
    split at hr
    case h_2 => cases hr
    rename_i m hm
    obtain ⟨rfl, rfl⟩ : m = n ∧ h' = h := by simpa using hr
    obtain ⟨name, rest, rfl, hlength, hplain, hbar, hnobar⟩ := exists_of_heading? hh
    have hname : h'.canonical ('{' :: '{' :: (name ++ rest)) =
        canonicalName (name.filter (· ≠ veil)) := by
      rw [Heading.canonical, ← hlength]
      simp
    rw [hname] at hw
    have hsign : (∃ r, rest = '|' :: r) ∨ ∃ r, rest = '}' :: '}' :: r := by
      cases hb : h'.hasBar with
      | true =>
        obtain ⟨r, hr⟩ := List.head?_eq_some_iff.mp (hbar hb)
        exact .inl ⟨r, hr⟩
      | false => exact .inr (hnobar hb)
    have ha : Announces wanted name rest ('{' :: '{' :: (name ++ rest)) := ⟨rfl, hplain, hsign, hw⟩
    exact ⟨name, rest, ha, Option.some.inj (hh.symm.trans ha.heading?_eq), hm⟩
  · rintro ⟨name, rest, ha, rfl, hn⟩
    have hname : Heading.canonical ⟨name.length, rest.head? = some '|'⟩ t =
        canonicalName (name.filter (· ≠ veil)) := by
      rw [Heading.canonical, ha.text]
      simp
    have hstart : Text.startsWith t ['{', '{'] = true := by
      rw [ha.text]
      rfl
    rw [invocationRule, if_pos hstart, ha.heading?_eq]
    simp only [hname, ha.wanted, if_true, hn]

/-! ## 3. Parameters -/

/-- The stretches cover a text from an offset on, with one bar between two. -/
inductive Tiles (t : Text) : Nat → List Span → Prop
  | last {s : Span} (stop : s.stop = t.length) : Tiles t s.start [s]
  | more {s : Span} {ss : List Span} (bar : t[s.stop]? = some '|')
      (rest : Tiles t (s.stop + 1) ss) : Tiles t s.start (s :: ss)

theorem Tiles.mono {u : Text} {a : Nat} {ss : List Span} (h : Tiles t a ss)
    (hlength : t.length = u.length) (hbars : ∀ i : Nat, t[i]? = some '|' → u[i]? = some '|') :
    Tiles u a ss := by
  induction h with
  | last stop => exact .last (stop.trans hlength)
  | more bar _ ih => exact .more (hbars _ bar) ih

namespace Page

variable {p : Page}

/-- The segments of the parameters are cut at the bars. -/
theorem tiles_paramsFrom {lengths : List Nat} {offset count : Nat} (hle : offset ≤ p.seen.length)
    (hcut : IsCut '|' lengths (p.seen.drop offset)) :
    Tiles p.seen offset ((p.paramsFrom offset count lengths).map (·.span)) := by
  induction lengths generalizing offset count with
  | nil => exact hcut.elim
  | cons n ns ih =>
    -- a segment takes its span whether it has a key or not
    obtain ⟨count', heq⟩ : ∃ count', (p.paramsFrom offset count (n :: ns)).map (·.span) =
        Span.ofLength offset n :: (p.paramsFrom (offset + n + 1) count' ns).map (·.span) := by
      rw [paramsFrom]
      split
      · exact ⟨count, rfl⟩
      · exact ⟨count + 1, rfl⟩
    rw [heq]
    cases ns with
    | nil =>
      obtain rfl : n = (p.seen.drop offset).length := hcut
      refine Tiles.last (s := Span.ofLength offset _) ?_
      rw [Span.stop_ofLength, List.length_drop]
      omega
    | cons m ns =>
      obtain ⟨hbar, hrest⟩ := hcut
      rw [List.getElem?_drop] at hbar
      have hlt := (List.getElem?_eq_some_iff.mp hbar).1
      rw [List.drop_drop] at hrest
      exact Tiles.more (s := Span.ofLength offset n) hbar (ih hlt hrest)

/-- **The segments of the parameters cover a parameter text**, with one bar between two. -/
theorem tiles_params (hbars : ∀ i : Nat, p.seen[i]? = some '|' → p.raw[i]? = some '|')
    (hraw : p.raw ≠ []) : Tiles p.raw 0 (p.params.map (·.span)) := by
  rw [params, if_neg (by simpa using hraw)]
  exact (tiles_paramsFrom (Nat.zero_le _) (isCut_segmentLengths p.seen)).mono p.aligned hbars

/-! ## 4. Invocations -/

/-- An invocation of a page with the name `name` in front of `rest`, without the reading that finds
it.  Its parameters begin behind a bar or, if there is none, at the closing braces. -/
structure IsBalanced (p : Page) (wanted : Text → Bool) (m : Template) (name rest : Text) :
    Prop where
  heading : Announces wanted name rest (p.seen.drop m.span.start)
  stop_le : m.span.stop ≤ p.seen.length
  opening : p.seen.slice m.span.start (m.span.start + 2) = ['{', '{']
  closing : p.seen.slice (m.span.stop - 2) m.span.stop = ['}', '}']
  balance_eq : braceBalance false (p.seen.cut m.span) = 0
  balance_pos : ∀ k, m.span.start + 2 ≤ k → k < m.span.stop →
    0 < braceBalance false (p.seen.slice m.span.start k)
  name_eq : m.name = Text.trim (p.raw.slice (m.span.start + 2) (m.span.start + 2 + name.length))
  params : p.seen[m.paramsStart - 1]? = some '|' ∧
      m.paramsStart = m.span.start + 2 + name.length + 1 ∨
    m.paramsStart = m.span.stop - 2 ∧ m.paramsStart = m.span.start + 2 + name.length
  room : m.span.start + 2 ≤ m.paramsStart ∧ m.paramsStart ≤ m.span.stop - 2
  paramText_eq : m.paramText = p.raw.slice m.paramsStart (m.span.stop - 2)
  tiles : m.paramText = [] ∧ m.params = [] ∨ Tiles m.paramText 0 (m.params.map (·.span))

/-- An invocation can be expected at an offset: a heading of a wanted one stands there, not behind a
brace, and the count of braces comes down to zero. -/
structure Announced (p : Page) (wanted : Text → Bool) (i : Nat) : Prop where
  heading : ∃ name rest, Announces wanted name rest (p.seen.drop i)
  alone : ∀ j, i = j + 1 → p.seen[j]? ≠ some '{'
  closes : ∃ k, 2 ≤ k ∧ braceBalance false ((p.seen.drop i).take k) = 0

variable {m : Template}

/-- Two characters behind each other, as a slice. -/
theorem slice_two {a : Nat} {c d : Char} {r : Text} (h : t.drop a = c :: d :: r) :
    t.slice a (a + 2) = [c, d] := by
  rw [Text.slice_add, h]
  rfl

/-- Behind its name an invocation has its closing braces, if there is no bar. -/
theorem length_of_announces {n : Nat} {r : Text} (ha : Announces wanted name ('}' :: '}' :: r) t)
    (hn : balancedLength? 0 false t = some n) : n = name.length + 4 := by
  have hclosed : balancedLength? 1 false ('}' :: '}' :: r) = some 2 := by
    simp [balancedLength?]
  rw [ha.text, balancedLength?, if_pos (by simp), balancedLength?,
    balancedLength?_append ha.plain, hclosed] at hn
  simpa [Nat.add_comm, Nat.add_left_comm] using hn.symm

theorem span_invocation (p : Page) (f : Found Heading) : (p.invocation f).span = f.span := rfl

/-- What is found stands between its braces. -/
theorem exists_isBalanced_of_mem (hbars : ∀ i : Nat, p.seen[i]? = some '|' → p.raw[i]? = some '|')
    (h : m ∈ p.templatesWhere wanted) : ∃ name rest, p.IsBalanced wanted m name rest := by
  have hi := isInvocation_of_mem h
  obtain ⟨f, hf, rfl⟩ := List.mem_map.mp h
  obtain ⟨i, n, _, -, hr, hs⟩ := exists_of_mem_scan hf
  have hstart : f.span.start = i := by rw [hs, Span.start_ofLength, Nat.zero_add]
  have hstop : f.span.stop = i + n := by rw [hs, Span.stop_ofLength, Nat.zero_add]
  obtain ⟨-, -, hlo, hhi, -⟩ := invocationRule_found hr
  obtain ⟨name, rest, ha, hvalue, hn⟩ := invocationRule_eq_found_iff.mp hr
  have hlength : f.value.nameLength = name.length := by rw [hvalue]
  have hcount := closes_of_opening (name ++ rest)
  rw [← ha.text, hn] at hcount
  obtain ⟨u, v, huv, hu⟩ := balancedLength?_closing hn
  have hparams : (p.invocation f).paramsStart = i + f.value.paramsOffset n := by
    simp only [invocation, Heading.paramsOffset, hstart, hstop]
    split <;> omega
  refine ⟨name, rest, ?heading, by rw [p.aligned]; exact hi.stop_le, ?opening, ?closing, ?zero,
    ?positive, by rw [← hlength]; rfl, ?params, ?room, hi.paramText_eq, ?tiles⟩
  case heading =>
    rw [span_invocation, hstart]
    exact ha
  case opening =>
    rw [span_invocation, hstart]
    exact slice_two ha.text
  case closing =>
    have hclosing : p.seen.drop (i + u.length) = '}' :: '}' :: v := by
      rw [← List.drop_drop, huv, List.drop_left]
    rw [span_invocation, hstop, hu, Nat.add_sub_assoc (Nat.le_add_left 2 _),
      Nat.add_sub_cancel, ← Nat.add_assoc]
    exact slice_two hclosing
  case zero =>
    rw [Text.cut, span_invocation, hstart, hstop, Text.slice_add]
    exact hcount.1
  case positive =>
    intro k hk hlt
    rw [span_invocation] at hk hlt ⊢
    obtain ⟨j, rfl⟩ : ∃ j, k = i + j := ⟨k - i, by omega⟩
    rw [hstart, Text.slice_add]
    exact hcount.2 j (by omega) (by omega)
  case params =>
    rw [hparams, span_invocation, hstart, hstop, Heading.paramsOffset, hlength, hvalue]
    rcases ha.sign with ⟨r, rfl⟩ | ⟨r, rfl⟩
    · left
      have hbar : p.seen[i + (2 + name.length)]? = some '|' := by
        rw [← List.getElem?_drop, ha.text, Nat.add_comm 2]
        simp
      rw [if_pos (by simp)]
      exact ⟨by rw [← hbar]; congr 1, by omega⟩
    · right
      rw [if_neg (by simp), length_of_announces ha hn]
      omega
  case room =>
    rw [hparams, span_invocation, hstart, hstop]
    omega
  case tiles =>
    rw [hi.params_eq, hi.paramText_eq]
    cases hraw : p.raw.slice (p.invocation f).paramsStart ((p.invocation f).span.stop - 2) with
    | nil => exact .inl ⟨rfl, by rw [params, raw_slice, hraw]; rfl⟩
    | cons c r =>
      right
      rw [← hraw]
      refine tiles_params (p := p.slice _ _) (fun j hj => ?_) (by rw [raw_slice, hraw]; simp)
      obtain ⟨hlt, hj⟩ := Text.getElem?_of_slice hj
      rw [raw_slice, Text.getElem?_slice, if_pos hlt]
      exact hbars _ hj

/-- **An invocation that can be expected is found**, unless an earlier one holds its place. -/
theorem exists_mem_of_announced {i : Nat} (h : p.Announced wanted i) :
    ∃ m ∈ p.templatesWhere wanted, m.span.start = i ∨ m.span.start < i ∧ i < m.span.stop := by
  obtain ⟨⟨name, rest, ha⟩, halone, k, hk, hzero⟩ := h
  obtain ⟨n, hn⟩ : ∃ n, balancedLength? 0 false (p.seen.drop i) = some n := by
    have hcount := closes_of_opening (name ++ rest)
    rw [← ha.text] at hcount
    cases hn : balancedLength? 0 false (p.seen.drop i) with
    | some n => exact ⟨n, rfl⟩
    | none =>
      rw [hn] at hcount
      have := hcount k hk
      omega
  have hrule := invocationRule_eq_found_iff.mpr ⟨name, rest, ha, rfl, hn⟩
  -- two braces are passed over at once, so the one in front of the place is not the first of them
  have hjump : ∀ (b : Option Char) j n, j < i →
      invocationRule wanted (p.seen.drop j) = .jump n → j + n ≤ i := by
    intro _ j n hj hr
    obtain ⟨rfl, hbraces⟩ : n = 2 ∧ Text.startsWith (p.seen.drop j) ['{', '{'] = true := by
      unfold invocationRule at hr
      split at hr
      case isFalse => cases hr
      rename_i hs
      refine ⟨?_, hs⟩
      split at hr
      · exact (Verdict.jump.inj hr).symm
      · split at hr
        · split at hr
          · cases hr
          · exact (Verdict.jump.inj hr).symm
        · exact (Verdict.jump.inj hr).symm
    by_contra hover
    obtain rfl : i = j + 1 := by omega
    obtain ⟨v, hv⟩ := List.isPrefixOf_iff_prefix.mp hbraces
    refine halone j rfl ?_
    rw [← List.head?_drop, ← hv]
    rfl
  obtain ⟨f, hf, hc⟩ := exists_mem_scan (measured_invocationRule wanted) (fun _ => hrule) hjump
  obtain ⟨hlo, hhi⟩ := Span.contains_iff.mp hc
  refine ⟨p.invocation f, List.mem_map_of_mem hf, ?_⟩
  rw [span_invocation]
  omega

/-- **The invocations of a page.**  They stand behind each other, each is well bracketed, and none
is missed. -/
structure AreFound (p : Page) (wanted : Text → Bool) (found : List Template) : Prop where
  ordered : found.Pairwise fun m m' => m.span.start < m'.span.start ∧ m.span.stop ≤ m'.span.start
  balanced : ∀ m ∈ found, ∃ name rest, p.IsBalanced wanted m name rest
  complete : ∀ i, p.Announced wanted i →
    ∃ m ∈ found, m.span.start = i ∨ m.span.start < i ∧ i < m.span.stop

end Page

/-- **Invocations are found well bracketed, apart, and all of them**, whatever the text is and
whichever names are wanted; `Page.templates` wants those of a list. -/
theorem templatesWhere_found (t : Text) (wanted : Text → Bool) :
    (Page.ofText t).AreFound wanted ((Page.ofText t).templatesWhere wanted) where
  ordered := by
    refine List.Pairwise.imp_of_mem (fun hm _ hle => ?_) (Page.pairwise_templatesWhere _ wanted)
    have := (Page.isInvocation_of_mem hm).start_lt
    exact ⟨by omega, hle⟩
  balanced m hm := Page.exists_isBalanced_of_mem
    (fun i hi => Page.isVeiled_ofText t hi (by decide)) hm
  complete i hi := Page.exists_mem_of_announced hi

end CiteMarkup
