import CiteMarkup.Proofs.Order.Stable
import CiteMarkup.Proofs.Page.Veil
import CiteMarkup.Proofs.Text.Read
import CiteMarkup.Proofs.Text.Scan
/-!
# Where reference tags stand

Tags come from two readings: one for tags with content, one for those without.  Each tag
begins with its bracket and lies between the offsets that were asked for
(`span_of_mem_refTagsBetween`), no two begin at one place (`pairwise_lt_refTagsBetween`), and
two tags with content have nothing in common (`apart_of_isFull`).
-/

namespace CiteMarkup

variable {t rest : Text} {o : Opening}

/-! ## 1. Opening tags -/

theorem length_of_readFrom? : ∀ {offset : Nat} {s : Opening.State} {t rest : Text} {o : Opening},
    Opening.readFrom? offset s t = some (o, rest) →
    o.length + rest.length = offset + t.length ∧ offset < o.length
  | offset, s, [], rest, o, h => by simp [Opening.readFrom?] at h
  | offset, s, c :: r, rest, o, h => by
    rw [Opening.readFrom?] at h
    split at h
    · rename_i o' ho
      obtain ⟨rfl, rfl⟩ : o' = o ∧ r = rest := by simpa using h
      have hl : o'.length = offset + 1 := by
        split at ho
        · unfold Opening.finish? at ho
          split at ho
          · rw [← Option.some.inj ho]
          · rw [← Option.some.inj ho]
          · rw [← Option.some.inj ho]
          · cases ho
        · cases ho
      rw [List.length_cons, hl]
      omega
    · split at h
      · have := length_of_readFrom? h
        rw [List.length_cons]
        omega
      · cases h

/-- An opening tag begins with its bracket; its name and the rest of it are taken from the
text. -/
theorem length_of_refOpening? (h : refOpening? t = some (o, rest)) :
    t.length = refHead + o.length + rest.length ∧ 0 < o.length ∧ t.head? = some '<' := by
  simp only [refOpening?, Option.bind_eq_bind, Option.bind_eq_some_iff] at h
  obtain ⟨r, hk, hr⟩ := h
  have hlen := length_of_keyword? hk
  obtain ⟨hl, hpos⟩ := length_of_readFrom? hr
  have hword : ("<ref".toList : Text).length = refHead := rfl
  exact ⟨by omega, hpos, head_of_keyword? hk⟩

/-- A slash that is read stays where it was read. -/
theorem slash_of_next? {offset at_ : Nat} {c : Char} {s : Opening.State}
    (h : Opening.next? offset c s = some (.slash at_)) : s = .slash at_ ∨ at_ = offset := by
  cases s <;> simp only [Opening.next?] at h <;> repeat' split at h
  all_goals simp_all

/-- The attributes stand in front of the bracket, and of the slash if there is one. -/
theorem attributes_lt_of_readFrom? : ∀ {offset : Nat} {s : Opening.State} {t rest : Text}
    {o : Opening}, (∀ at_, s = .slash at_ → at_ ≤ offset) →
    Opening.readFrom? offset s t = some (o, rest) → o.attributes < o.length
  | offset, s, [], rest, o, hs, h => by simp [Opening.readFrom?] at h
  | offset, s, c :: r, rest, o, hs, h => by
    rw [Opening.readFrom?] at h
    split at h
    · rename_i o' ho
      obtain ⟨rfl, rfl⟩ : o' = o ∧ r = rest := by simpa using h
      split at ho
      · unfold Opening.finish? at ho
        split at ho
        · rw [← Option.some.inj ho]
          exact Nat.lt_succ_self _
        · rw [← Option.some.inj ho]
          exact Nat.lt_succ_self _
        · rw [← Option.some.inj ho]
          exact Nat.lt_succ_of_le (hs _ rfl)
        · cases ho
      · cases ho
    · split at h
      · rename_i s' hnext
        refine attributes_lt_of_readFrom? (fun at_ heq => ?_) h
        rcases slash_of_next? (heq ▸ hnext) with hslash | hslash
        · exact Nat.le_succ_of_le (hs at_ hslash)
        · omega
      · cases h

theorem attributes_lt_of_refOpening? (h : refOpening? t = some (o, rest)) :
    o.attributes < o.length := by
  simp only [refOpening?, Option.bind_eq_bind, Option.bind_eq_some_iff] at h
  obtain ⟨r, -, hr⟩ := h
  exact attributes_lt_of_readFrom? (fun at_ h => by cases h) hr

/-- An opening tag ends with its bracket. -/
theorem bracket_of_readFrom? : ∀ {offset : Nat} {s : Opening.State} {t rest : Text} {o : Opening},
    Opening.readFrom? offset s t = some (o, rest) → t[o.length - (offset + 1)]? = some '>'
  | offset, s, [], rest, o, h => by simp [Opening.readFrom?] at h
  | offset, s, c :: r, rest, o, h => by
    have hlength := (length_of_readFrom? h).2
    rw [Opening.readFrom?] at h
    split at h
    · rename_i o' ho
      obtain ⟨rfl, rfl⟩ : o' = o ∧ r = rest := by simpa using h
      split at ho
      · rename_i hc
        have hl : o'.length = offset + 1 := by
          unfold Opening.finish? at ho
          split at ho
          · rw [← Option.some.inj ho]
          · rw [← Option.some.inj ho]
          · rw [← Option.some.inj ho]
          · cases ho
        rw [hl, Nat.sub_self, hc]
        rfl
      · cases ho
    · split at h
      · have hlt := (length_of_readFrom? h).2
        rw [show o.length - (offset + 1) = o.length - (offset + 1 + 1) + 1 by omega,
          List.getElem?_cons_succ]
        exact bracket_of_readFrom? h
      · cases h

theorem bracket_of_refOpening? (h : refOpening? t = some (o, rest)) :
    t[refHead + o.length - 1]? = some '>' := by
  have hpos := (length_of_refOpening? h).2.1
  simp only [refOpening?, Option.bind_eq_bind, Option.bind_eq_some_iff] at h
  obtain ⟨r, hk, hr⟩ := h
  obtain ⟨word, rfl⟩ := suffix_of_keyword? hk
  have hword : word.length = refHead := by
    have hlength := length_of_keyword? hk
    rw [List.length_append] at hlength
    exact Nat.add_right_cancel hlength
  rw [List.getElem?_append_right (by omega), ← bracket_of_readFrom? hr]
  congr 1
  omega

/-! ## 2. The two rules -/

theorem length_of_refClosing? (h : refClosing? t = some rest) : rest.length < t.length := by
  simp only [refClosing?, Option.bind_eq_bind, Option.bind_eq_some_iff] at h
  obtain ⟨r, hk, ha⟩ := h
  have h1 := length_of_keyword? hk
  have h2 := congrArg List.length (eq_append_of_after? ha)
  have h3 := (List.dropWhile_suffix isBlank (l := r)).length_le
  have hword : ("</ref".toList : Text).length = 5 := rfl
  simp only [List.length_append, List.length_singleton] at h2
  omega

/-- What the rule for tags with content finds. -/
theorem fullTagRule_found {n k : Nat} (h : fullTagRule t = .found n (o, k)) :
    refHead + o.length + k < n ∧ n ≤ t.length ∧ t.head? = some '<' := by
  unfold fullTagRule at h
  split at h
  · rename_i o' r ho
    split at h
    · cases h
    · split at h
      · rename_i body rest hu
        obtain ⟨hlen, hpos, hhead⟩ := length_of_refOpening? ho
        obtain ⟨close, rfl, hc⟩ := eq_append_of_until? hu
        have hcl := length_of_refClosing? hc
        simp only [Verdict.found.injEq, Prod.mk.injEq] at h
        obtain ⟨hn, rfl, hk⟩ := h
        rw [List.length_append] at hlen
        exact ⟨by omega, by omega, hhead⟩
      · cases h
  · cases h

/-- What the rule for tags without content finds. -/
theorem emptyTagRule_found {n : Nat} (h : emptyTagRule t = .found n o) :
    n = refHead + o.length ∧ 0 < o.length ∧ n ≤ t.length ∧ t.head? = some '<' := by
  unfold emptyTagRule at h
  split at h
  · rename_i o' r ho
    split at h
    · obtain ⟨hlen, hpos, hhead⟩ := length_of_refOpening? ho
      simp only [Verdict.found.injEq] at h
      obtain ⟨hn, rfl⟩ := h
      exact ⟨hn.symm, hpos, by omega, hhead⟩
    · cases h
  · cases h

theorem attributes_lt_of_fullTagRule {n k : Nat} (h : fullTagRule t = .found n (o, k)) :
    o.attributes < o.length := by
  unfold fullTagRule at h
  split at h
  · rename_i o' r ho
    split at h
    · cases h
    · split at h
      · obtain ⟨-, rfl, -⟩ : _ ∧ o' = o ∧ _ := by simpa using h
        exact attributes_lt_of_refOpening? ho
      · cases h
  · cases h

theorem attributes_lt_of_emptyTagRule {n : Nat} (h : emptyTagRule t = .found n o) :
    o.attributes < o.length := by
  unfold emptyTagRule at h
  split at h
  · rename_i o' r ho
    split at h
    · obtain ⟨-, rfl⟩ : _ ∧ o' = o := by simpa using h
      exact attributes_lt_of_refOpening? ho
    · cases h
  · cases h

theorem measured_fullTagRule : Measured fun _ => fullTagRule := by
  intro _ t n a h
  have hf := fullTagRule_found (o := a.1) (k := a.2) h
  omega

theorem measured_emptyTagRule : Measured fun _ => emptyTagRule := by
  intro _ t n o h
  have hf := emptyTagRule_found h
  omega

/-! ## 3. Tags of a page -/

namespace Page

variable {p : Page} {a b : Nat} {tag tag' : RefTag}

/-- The tags with content between two offsets. -/
def fullTagsBetween (p : Page) (a b : Nat) : List RefTag :=
  (scan (fun _ => fullTagRule) (p.seen.slice a b) a).map p.fullTag

/-- The tags without content between two offsets that begin in no tag with content. -/
def emptyTagsBetween (p : Page) (a b : Nat) : List RefTag :=
  ((scan (fun _ => emptyTagRule) (p.seen.slice a b) a).map p.emptyTag).filter fun e =>
    !(p.fullTagsBetween a b).any fun f => f.span.contains e.span.start

theorem refTagsBetween_eq (p : Page) (a b : Nat) :
    p.refTagsBetween a b =
      sortByStart (·.span.start) (p.fullTagsBetween a b ++ p.emptyTagsBetween a b) := rfl

theorem mem_refTagsBetween :
    tag ∈ p.refTagsBetween a b ↔
      tag ∈ p.fullTagsBetween a b ∨ tag ∈ p.emptyTagsBetween a b := by
  rw [refTagsBetween_eq, mem_sortByStart, List.mem_append]

theorem isFull_of_mem_fullTagsBetween (h : tag ∈ p.fullTagsBetween a b) : tag.isFull = true := by
  obtain ⟨f, -, rfl⟩ := List.mem_map.mp h
  rfl

theorem not_isFull_of_mem_emptyTagsBetween (h : tag ∈ p.emptyTagsBetween a b) :
    tag.isFull = false := by
  obtain ⟨f, -, rfl⟩ := List.mem_map.mp (List.mem_filter.mp h).1
  rfl

theorem mem_fullTagsBetween (h : tag ∈ p.refTagsBetween a b) (hf : tag.isFull = true) :
    tag ∈ p.fullTagsBetween a b :=
  (mem_refTagsBetween.mp h).resolve_right fun he => by
    rw [not_isFull_of_mem_emptyTagsBetween he] at hf
    cases hf

/-- A finding at the bracket of a tag, seen from the page. -/
theorem seen_of_found {i : Nat} {c : Char} (h : ((p.seen.slice a b).drop i).head? = some c) :
    p.seen[a + i]? = some c := by
  rw [List.head?_drop] at h
  exact (Text.getElem?_of_slice h).2

/-- **Where a tag stands.**  It begins with its bracket and lies between the offsets. -/
theorem span_of_mem_refTagsBetween (h : tag ∈ p.refTagsBetween a b) :
    a ≤ tag.span.start ∧ tag.span.start < tag.span.stop ∧
      tag.span.stop ≤ min b p.raw.length ∧ p.seen[tag.span.start]? = some '<' := by
  have hlen : (p.seen.slice a b).length = min b p.raw.length - a := by
    rw [Text.length_slice, p.aligned]
  have inside : ∀ {α : Type} {rule : Text → Verdict α} {f : Found α},
      (∀ {t n v}, rule t = .found n v → 0 < n ∧ n ≤ t.length ∧ t.head? = some '<') →
      f ∈ scan (fun _ => rule) (p.seen.slice a b) a →
      a ≤ f.span.start ∧ f.span.start < f.span.stop ∧
        f.span.stop ≤ min b p.raw.length ∧ p.seen[f.span.start]? = some '<' := by
    intro α rule f hrule hf
    obtain ⟨i, n, _, hi, hr, hs⟩ := exists_of_mem_scan hf
    obtain ⟨hn, hle, hhead⟩ := hrule hr
    rw [List.length_drop] at hle
    rw [hs]
    simp only [Span.start_ofLength, Span.stop_ofLength]
    exact ⟨by omega, by omega, by omega, seen_of_found hhead⟩
  rcases mem_refTagsBetween.mp h with h | h
  · obtain ⟨f, hf, rfl⟩ := List.mem_map.mp h
    refine inside (fun {t n v} hr => ?_) hf
    have hfound := fullTagRule_found (o := v.1) (k := v.2) hr
    exact ⟨by omega, hfound.2⟩
  · obtain ⟨f, hf, rfl⟩ := List.mem_map.mp (List.mem_filter.mp h).1
    refine inside (fun {t n v} hr => ?_) hf
    have hfound := emptyTagRule_found hr
    exact ⟨by omega, hfound.2.2⟩

/-- The tags with content stand one behind the other. -/
theorem pairwise_fullTagsBetween (p : Page) (a b : Nat) :
    (p.fullTagsBetween a b).Pairwise fun s t => s.span.stop ≤ t.span.start :=
  List.pairwise_map.mpr (pairwise_scan measured_fullTagRule _ a)

theorem pairwise_emptyTagsBetween (p : Page) (a b : Nat) :
    (p.emptyTagsBetween a b).Pairwise fun s t => s.span.stop ≤ t.span.start :=
  (List.pairwise_map.mpr (pairwise_scan measured_emptyTagRule _ a)).filter _

/-- **No two tags begin at one place.** -/
theorem pairwise_lt_refTagsBetween (p : Page) (a b : Nat) :
    (p.refTagsBetween a b).Pairwise fun s t => s.span.start < t.span.start := by
  have nonempty : ∀ tag, tag ∈ p.fullTagsBetween a b ∨ tag ∈ p.emptyTagsBetween a b →
      tag.span.start < tag.span.stop := fun tag h =>
    (span_of_mem_refTagsBetween (mem_refTagsBetween.mpr h)).2.1
  rw [refTagsBetween_eq]
  refine pairwise_lt_sortByStart (List.pairwise_append.mpr ⟨?_, ?_, ?_⟩)
  · refine (pairwise_fullTagsBetween p a b).imp_of_mem fun {s t} hs _ hst => ?_
    have := nonempty s (.inl hs)
    omega
  · refine (pairwise_emptyTagsBetween p a b).imp_of_mem fun {s t} hs _ hst => ?_
    have := nonempty s (.inr hs)
    omega
  · -- a tag without content that begins with one that has content would begin inside it
    intro s hs t ht heq
    have hout := (List.mem_filter.mp ht).2
    have hin : (p.fullTagsBetween a b).any (fun f => f.span.contains t.span.start) = true :=
      List.any_eq_true.mpr ⟨s, hs, Span.contains_iff.mpr ⟨by omega, by
        have := nonempty s (.inl hs)
        omega⟩⟩
    rw [hin] at hout
    cases hout

/-- **Tags with content have nothing in common.** -/
theorem apart_of_isFull (h : tag ∈ p.refTagsBetween a b) (h' : tag' ∈ p.refTagsBetween a b)
    (hf : tag.isFull = true) (hf' : tag'.isFull = true) :
    tag = tag' ∨ tag.span.Apart tag'.span :=
  Span.apart_of_pairwise (pairwise_fullTagsBetween p a b) (mem_fullTagsBetween h hf)
    (mem_fullTagsBetween h' hf')

end Page
end CiteMarkup
