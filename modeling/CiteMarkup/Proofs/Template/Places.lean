import CiteMarkup.Proofs.Template.Params
import CiteMarkup.Proofs.Text.Read
import CiteMarkup.Proofs.Text.Scan
import CiteMarkup.Template.Invocation
/-!
# Where templates stand

An invocation begins with two braces and a name and ends with the two braces that balance it.
Its parameter text lies between, so that a template has room for its braces on both sides of
everything that is read inside it (`Page.IsInvocation.bounds_of_mem_params`).
-/

namespace CiteMarkup

variable {t : Text}

/-! ## 1. Balanced braces -/

theorem balancedLength?_bounds : ∀ {t : Text} {open_ n : Nat} {inPair : Bool},
    balancedLength? open_ inPair t = some n → n ≤ t.length ∧ (inPair = false → 2 ≤ n)
  | [], open_, n, inPair, h => by simp [balancedLength?] at h
  | c :: r, open_, n, true, h => by
    simp only [balancedLength?, Option.map_eq_some_iff] at h
    obtain ⟨m, hm, rfl⟩ := h
    have := balancedLength?_bounds hm
    exact ⟨by rw [List.length_cons]; omega, fun hp => by cases hp⟩
  | c :: r, open_, n, false, h => by
    have more : ∀ {open' : Nat} {pair : Bool} {m : Nat},
        balancedLength? open' pair r = some m → (pair = true → 0 < m) →
        m + 1 ≤ (c :: r).length ∧ (false = false → 2 ≤ m + 1) := by
      intro open' pair m hm hpos
      obtain ⟨hle, htwo⟩ := balancedLength?_bounds hm
      refine ⟨by rw [List.length_cons]; omega, fun _ => ?_⟩
      cases pair with
      | true => have := hpos rfl; omega
      | false => have := htwo rfl; omega
    have positive : ∀ {open' m : Nat}, balancedLength? open' true r = some m → 0 < m := by
      intro open' m hm
      cases r with
      | nil => simp [balancedLength?] at hm
      | cons d r =>
        simp only [balancedLength?, Option.map_eq_some_iff] at hm
        obtain ⟨k, -, rfl⟩ := hm
        omega
    rw [balancedLength?] at h
    split at h
    · obtain ⟨m, hm, rfl⟩ := Option.map_eq_some_iff.mp h
      exact more hm fun _ => positive hm
    · split at h
      · rename_i hclose
        split at h
        · -- two closing braces are left in the text
          obtain rfl : 2 = n := by simpa using h
          have hr : r.head? = some '}' := by
            simp only [Bool.and_eq_true, decide_eq_true_eq] at hclose
            exact hclose.2
          cases r with
          | nil => simp at hr
          | cons d r => exact ⟨by simp, fun _ => Nat.le_refl _⟩
        · obtain ⟨m, hm, rfl⟩ := Option.map_eq_some_iff.mp h
          exact more hm fun _ => positive hm
      · obtain ⟨m, hm, rfl⟩ := Option.map_eq_some_iff.mp h
        exact more hm fun hp => by cases hp

/-- A character of a name neither opens nor closes anything. -/
theorem balancedLength?_append {open_ : Nat} {r : Text} : ∀ {name : Text},
    (∀ c ∈ name, isNameChar c = true) →
    balancedLength? open_ false (name ++ r) =
      (balancedLength? open_ false r).map (· + name.length)
  | [], _ => by simp
  | c :: name, h => by
    have hc : c ≠ '{' ∧ c ≠ '}' := by
      have hn := h c List.mem_cons_self
      constructor <;> (rintro rfl; revert hn; decide)
    rw [List.cons_append, balancedLength?,
      if_neg (by simp [hc.1]), if_neg (by simp [hc.2]),
      balancedLength?_append fun d hd => h d (List.mem_cons_of_mem _ hd), Option.map_map]
    congr 1

/-- What balances ends with two closing braces. -/
theorem balancedLength?_closing {t : Text} {n k : Nat} {b : Bool}
    (h : balancedLength? n b t = some k) :
    ∃ u v : Text, t = u ++ '}' :: '}' :: v ∧ k = u.length + 2 := by
  induction t generalizing n k b with
  | nil => simp [balancedLength?] at h
  | cons c r ih =>
    have later : ∀ {n' : Nat} {b' : Bool}, (balancedLength? n' b' r).map (· + 1) = some k →
        ∃ u v : Text, c :: r = u ++ '}' :: '}' :: v ∧ k = u.length + 2 := by
      intro n' b' hr
      obtain ⟨j, hj, rfl⟩ := Option.map_eq_some_iff.mp hr
      obtain ⟨u, v, rfl, rfl⟩ := ih hj
      exact ⟨c :: u, v, rfl, rfl⟩
    cases b with
    | true => exact later h
    | false =>
      rw [balancedLength?] at h
      split at h
      · exact later h
      · split at h
        · rename_i hclose
          simp only [Bool.and_eq_true, decide_eq_true_eq] at hclose
          obtain ⟨rfl, hr⟩ := hclose
          split at h
          · obtain ⟨v, rfl⟩ : ∃ v, r = '}' :: v := by
              cases r with
              | nil => cases hr
              | cons d v => exact ⟨v, by rw [Option.some.inj hr]⟩
            exact ⟨[], v, rfl, (Option.some.inj h).symm⟩
          · exact later h
        · exact later h

/-! ## 2. Headings -/

/-- What stands at the place of a heading: two braces, the name, and a bar or the closing
braces. -/
theorem exists_of_heading? {h : Heading} (hh : heading? t = some h) :
    ∃ name r : Text, t = '{' :: '{' :: (name ++ r) ∧ name.length = h.nameLength ∧
      (∀ c ∈ name, isNameChar c = true) ∧
      (h.hasBar = true → r.head? = some '|') ∧
      (h.hasBar = false → ∃ r', r = '}' :: '}' :: r') := by
  simp only [heading?, Option.bind_eq_bind, Option.bind_eq_some_iff] at hh
  obtain ⟨r, ha, hh⟩ := hh
  have hname : r.takeWhile isNameChar ++ r.drop (r.takeWhile isNameChar).length = r :=
    List.prefix_iff_eq_append.mp (List.takeWhile_prefix isNameChar)
  refine ⟨r.takeWhile isNameChar, r.drop (r.takeWhile isNameChar).length, ?_, ?_⟩
  · rw [hname]
    simpa using eq_append_of_after? ha
  · have hall : ∀ c ∈ r.takeWhile isNameChar, isNameChar c = true :=
      List.all_eq_true.mp List.all_takeWhile
    split at hh
    · rename_i r' hr
      obtain rfl := Option.some.inj hh
      exact ⟨rfl, hall, fun _ => by rw [hr]; rfl, fun hb => by cases hb⟩
    · rename_i r' hr
      obtain rfl := Option.some.inj hh
      exact ⟨rfl, hall, (fun hb => by cases hb), fun _ => ⟨r', hr⟩⟩
    · cases hh

/-- The place of the parameters of an invocation of `n` characters that begins a text. -/
def Heading.paramsOffset (h : Heading) (n : Nat) : Nat :=
  if h.hasBar then 2 + h.nameLength + 1 else n - 2

/-- What the rule for invocations finds has room for its braces. -/
theorem invocationRule_found {wanted : Text → Bool} {n : Nat} {h : Heading}
    (hr : invocationRule wanted t = .found n h) :
    n ≤ t.length ∧ t.head? = some '{' ∧ 2 + h.nameLength ≤ h.paramsOffset n ∧
      h.paramsOffset n + 2 ≤ n ∧ wanted (h.canonical t) = true := by
  unfold invocationRule at hr
  split at hr
  case isFalse => cases hr
  split at hr
  case h_1 => cases hr
  rename_i h' hh
  split at hr
  case isFalse => cases hr
  rename_i hw
  split at hr
  case h_2 => cases hr
  rename_i m hm
  obtain ⟨rfl, rfl⟩ : m = n ∧ h' = h := by simpa using hr
  have hle := (balancedLength?_bounds hm).1
  obtain ⟨name, r, rfl, hlen, hall, hbar, hnobar⟩ := exists_of_heading? hh
  -- the braces and the name are passed over; what is left of the length is read behind them
  have hrest : ∃ k, balancedLength? 1 false r = some k ∧ k + name.length + 2 = m := by
    rw [balancedLength?, if_pos (by simp), balancedLength?, balancedLength?_append hall] at hm
    simp only [Option.map_map, Option.map_eq_some_iff] at hm
    obtain ⟨k, hk, hkm⟩ := hm
    exact ⟨k, hk, by simp only [Function.comp] at hkm; omega⟩
  obtain ⟨k, hk, hkm⟩ := hrest
  refine ⟨hle, by simp, ?_, ?_, hw⟩
  · unfold Heading.paramsOffset
    split
    · omega
    · have := (balancedLength?_bounds hk).2 rfl
      omega
  · unfold Heading.paramsOffset
    split
    · -- behind the bar the closing braces are still to come
      rename_i hb
      have hhead := hbar hb
      cases r with
      | nil => simp at hhead
      | cons c r =>
        obtain rfl : c = '|' := by simpa using hhead
        rw [balancedLength?, if_neg (by simp), if_neg (by simp)] at hk
        obtain ⟨j, hj, rfl⟩ := Option.map_eq_some_iff.mp hk
        have := (balancedLength?_bounds hj).2 rfl
        omega
    · have := (balancedLength?_bounds hk).2 rfl
      omega

theorem measured_invocationRule (wanted : Text → Bool) :
    Measured fun _ => invocationRule wanted := by
  intro _ t n h hr
  have := invocationRule_found hr
  omega

/-! ## 3. Invocations of a page -/

namespace Page

variable {p : Page} {wanted : Text → Bool} {t : Template}

/-- What an invocation on a page takes up: its braces, and the parameter text between. -/
structure IsInvocation (p : Page) (t : Template) : Prop where
  stop_le : t.span.stop ≤ p.raw.length
  brace : p.seen[t.span.start]? = some '{'
  room : t.span.start + 2 ≤ t.paramsStart
  stop_eq : t.paramsStart + t.paramText.length + 2 = t.span.stop
  paramText_eq : t.paramText = p.raw.slice t.paramsStart (t.span.stop - 2)
  params_eq : t.params = (p.slice t.paramsStart (t.span.stop - 2)).params

/-- **Where an invocation stands.** -/
theorem isInvocation_of_mem (h : t ∈ p.templatesWhere wanted) : p.IsInvocation t := by
  obtain ⟨f, hf, rfl⟩ := List.mem_map.mp h
  obtain ⟨i, n, _, hi, hr, hs⟩ := exists_of_mem_scan hf
  obtain ⟨hle, hhead, hlo, hhi, -⟩ := invocationRule_found hr
  rw [List.length_drop, p.aligned] at hle
  rw [p.aligned] at hi
  have hstart : f.span.start = i := by rw [hs, Span.start_ofLength, Nat.zero_add]
  have hstop : f.span.stop = i + n := by rw [hs, Span.stop_ofLength, Nat.zero_add]
  have hparams : (p.invocation f).paramsStart = i + f.value.paramsOffset n := by
    simp only [invocation, Heading.paramsOffset, hstart, hstop]
    split <;> omega
  have htext : (p.invocation f).paramText =
      p.raw.slice (p.invocation f).paramsStart (f.span.stop - 2) := rfl
  refine ⟨?_, ?_, ?_, ?_, htext, rfl⟩
  · change f.span.stop ≤ _
    omega
  · change p.seen[f.span.start]? = _
    rw [hstart, ← hhead, List.head?_drop]
  · change f.span.start + 2 ≤ _
    omega
  · change _ = f.span.stop
    rw [htext, Text.length_slice, hparams]
    omega

theorem pairwise_templatesWhere (p : Page) (wanted : Text → Bool) :
    (p.templatesWhere wanted).Pairwise fun s t => s.span.stop ≤ t.span.start :=
  List.pairwise_map.mpr (pairwise_scan (measured_invocationRule wanted) _ 0)

namespace IsInvocation

variable (hi : p.IsInvocation t)
include hi

theorem start_lt : t.span.start < t.span.stop := by
  have := hi.room
  have := hi.stop_eq
  omega

/-- A parameter has its segment and its value between the braces. -/
theorem bounds_of_mem_params {q : Param} (hq : q ∈ t.params) :
    q.span.start ≤ q.valueStart ∧ q.valueStart + q.value.length ≤ q.span.stop ∧
      t.paramsStart + q.span.stop + 2 ≤ t.span.stop := by
  rw [hi.params_eq] at hq
  obtain ⟨h1, h2, h3⟩ := Page.bounds_of_mem_params hq
  have := hi.stop_eq
  rw [raw_slice, ← hi.paramText_eq] at h3
  omega

end IsInvocation

end Page
end CiteMarkup
