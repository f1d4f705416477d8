import CiteMarkup.Proofs.Order.Natural
import CiteMarkup.Proofs.Reference.Rebuilt
import CiteMarkup.Proofs.Template.Brackets
import CiteMarkup.Proofs.Transform.Following
import CiteMarkup.Proofs.Transform.Moving
/-!
# Definitions go to the list of their group

The first output list of a group gets all definitions of the group, every other list gets none,
and a group without a list gets one list at the end of the page.  This file says what a list
reads then, character by character (`Template.Rebuilt`): an old value is cut out at its sign, or
with the bar in front of its key, and everything around it stays.

The main result is `definitions_routed`.  It needs nothing of the page or of the definitions.
An earlier parameter `refs` of a list is no place of definitions, since the last one counts, and
stays as it is.
-/

namespace CiteMarkup

/-! ## 1. What a list reads -/

/-- A list with its last parameter `refs` taken out of it: the text in front of the bar, the key
as it is written, the old value, and the text behind. -/
structure Template.HoldsRefs (l : Template) (page front key old back : Text) : Prop where
  text : page.cut l.span = front ++ '|' :: (key ++ '=' :: (old ++ back))
  key : Text.lower (Text.trim key) = refsKey
  place : ∃ refs, l.refs? = some refs ∧ refs.value = old.trim ∧
    l.paramsStart + refs.span.start = l.span.start + front.length + 1 ∧
    l.paramsStart + refs.span.stop + back.length = l.span.stop

/-- What a list reads when it has the definitions `own` and no others. -/
inductive Template.Rebuilt (l : Template) (page : Text) (style : ListStyle) (own : List ListEntry) :
    Text → Prop
  | same (hrefs : l.refs? = none) (hown : own = []) : Rebuilt l page style own (page.cut l.span)
  | added {body : Text} (hrefs : l.refs? = none) (hown : own ≠ [])
      (htext : page.cut l.span = body ++ ['}', '}']) :
      Rebuilt l page style own (body ++ "|refs=".toList ++ style.value own ++ ['}', '}'])
  | removed {front key old back : Text} (hrefs : l.HoldsRefs page front key old back)
      (hown : own = []) : Rebuilt l page style own (front ++ back)
  | replaced {front key old back : Text} (hrefs : l.HoldsRefs page front key old back)
      (hown : own ≠ []) :
      Rebuilt l page style own (front ++ '|' :: (key ++ '=' :: (style.value own ++ back)))

/-! ## 2. Bars and braces -/

namespace Page

variable {p : Page} {wanted : Text → Bool} {l : Template} {q : Param}

/-- A template ends with two closing braces, and has a bar in front of its parameters if it has
any. -/
theorem signs_of_mem (h : l ∈ p.templatesWhere wanted) :
    p.seen[l.span.stop - 2]? = some '}' ∧ p.seen[l.span.stop - 1]? = some '}' ∧
      (l.params ≠ [] → p.seen[l.paramsStart - 1]? = some '|') := by
  obtain ⟨f, hf, rfl⟩ := List.mem_map.mp h
  obtain ⟨i, n, before, -, hr, hs⟩ := exists_of_mem_scan hf
  have hstart : f.span.start = i := by rw [hs, Span.start_ofLength, Nat.zero_add]
  have hstop : f.span.stop = i + n := by rw [hs, Span.stop_ofLength, Nat.zero_add]
  obtain ⟨-, -, hlo, hhi, -⟩ := invocationRule_found hr
  unfold invocationRule at hr
  split at hr
  case isFalse => cases hr
  split at hr
  case h_1 => cases hr
  rename_i heading hheading
  split at hr
  case isFalse => cases hr
  split at hr
  case h_2 => cases hr
  rename_i k hk
  obtain ⟨rfl, rfl⟩ : k = n ∧ heading = f.value := by simpa using hr
  obtain ⟨u, v, huv, rfl⟩ := balancedLength?_closing hk
  have hat : ∀ j, p.seen[i + j]? = (u ++ '}' :: '}' :: v)[j]? := fun j => by
    rw [← huv, List.getElem?_drop]
  obtain ⟨name, r, hshape, hlength, -, hbar, -⟩ := exists_of_heading? hheading
  refine ⟨?_, ?_, fun hparams => ?_⟩
  · change p.seen[f.span.stop - 2]? = _
    rw [hstop, show i + (u.length + 2) - 2 = i + u.length by omega, hat]
    simp
  · change p.seen[f.span.stop - 1]? = _
    rw [hstop, show i + (u.length + 2) - 1 = i + (u.length + 1) by omega, hat]
    simp
  · have hhas : f.value.hasBar = true := by
      by_contra hno
      refine hparams ?_
      have hempty : (p.raw.slice (f.span.stop - 2) (f.span.stop - 2)) = [] := Text.slice_self _ _
      simp only [invocation, if_neg hno, params, raw_slice, hempty, List.isEmpty_nil, if_true]
    have hhead := hbar hhas
    change p.seen[(if f.value.hasBar then f.span.start + 2 + f.value.nameLength + 1
      else f.span.stop - 2) - 1]? = _
    rw [if_pos hhas, hstart, ← hlength,
      show i + 2 + name.length + 1 - 1 = i + (name.length + 2) by omega, hat, ← huv, hshape,
      List.getElem?_cons_succ, List.getElem?_cons_succ, List.getElem?_append_right (Nat.le_refl _),
      Nat.sub_self, ← List.head?_eq_getElem?]
    exact hhead

/-- In front of a parameter that is not the first one stands a bar. -/
theorem bar_of_mem_paramsFrom {lengths : List Nat} {offset count : Nat} {s : Nesting}
    (hlengths : pieceLengthsFrom Nesting.pair? Nesting.isOutside '|' 0 false s
      (p.seen.drop offset) = lengths)
    (hfit : p.Fits offset lengths) (hq : q ∈ p.paramsFrom offset count lengths) :
    q.span.start = offset ∨ 0 < q.span.start ∧ p.seen[q.span.start - 1]? = some '|' := by
  induction lengths generalizing offset count s with
  | nil => cases hq
  | cons n ns ih =>
    obtain ⟨q', count', heq, hsegment⟩ := paramsFrom_cons count hfit
    rw [heq] at hq
    rcases List.mem_cons.mp hq with rfl | hq
    · rw [hsegment.span_eq]
      exact .inl rfl
    · right
      obtain ⟨u, s', -, hn, ⟨rfl, -⟩ | ⟨v, hv, -, hrest⟩⟩ :=
        exists_of_pieceLengthsFrom (by simp) hlengths
      · cases hq
      · obtain rfl : n = u.length := by omega
        have hdrop : p.seen.drop (offset + u.length + 1) = v := by
          rw [Nat.add_assoc, ← List.drop_drop, hv, ← List.drop_drop, List.drop_left, List.drop_one,
            List.tail_cons]
        have hbar : p.seen[offset + u.length]? = some '|' := by
          rw [← List.getElem?_drop, hv]
          simp
        rcases ih (by rw [hdrop]; exact hrest) hfit.tail hq with hstart | hlater
        · rw [hstart]
          exact ⟨by omega, hbar⟩
        · exact hlater

theorem bar_of_mem_params (hq : q ∈ p.params) :
    q.span.start = 0 ∨ 0 < q.span.start ∧ p.seen[q.span.start - 1]? = some '|' := by
  unfold params at hq
  split at hq
  · cases hq
  · exact bar_of_mem_paramsFrom rfl (fits_segmentLengths p) hq

/-- A parameter with a key is the key as it is written, the sign, and the value as it is
written. -/
theorem parts_of_mem_paramsFrom {k : Text} (hk : q.label = .key k) {lengths : List Nat}
    {offset count : Nat} (hfit : p.Fits offset lengths)
    (hq : q ∈ p.paramsFrom offset count lengths) :
    ∃ e, q.span.start + e < q.span.stop ∧ p.seen[q.span.start + e]? = some '=' ∧
      k = Text.trim (p.raw.slice q.span.start (q.span.start + e)) ∧
      q.value = Text.trim (p.raw.slice (q.span.start + e + 1) q.span.stop) := by
  induction lengths generalizing offset count with
  | nil => cases hq
  | cons n ns ih =>
    have hlength : (p.slice offset (offset + n)).seen.length = n := by
      simp only [Fits, List.map_cons, List.sum_cons] at hfit
      rw [(p.slice offset (offset + n)).aligned, raw_slice, Text.length_slice]
      omega
    rw [paramsFrom] at hq
    split at hq
    · rename_i e he
      have hlt := lt_of_equalsSign? he
      rcases List.mem_cons.mp hq with rfl | hq
      · obtain rfl := Label.key.inj hk
        simp only [Param.make, Span.start_ofLength, Span.stop_ofLength]
        refine ⟨e, by omega, (Text.getElem?_of_slice (getElem?_of_equalsSign? he)).2, ?_, ?_⟩
        · rw [raw_slice, Text.slice, Text.slice, List.take_drop, List.take_take,
            Nat.min_eq_left (by omega)]
        · rw [raw_slice, Text.slice, Text.slice, List.drop_drop]
          rfl
      · exact ih hfit.tail hq
    · rcases List.mem_cons.mp hq with rfl | hq
      · cases hk
      · exact ih hfit.tail hq

theorem parts_of_mem_params {k : Text} (hk : q.label = .key k) (hq : q ∈ p.params) :
    ∃ e, q.span.start + e < q.span.stop ∧ p.seen[q.span.start + e]? = some '=' ∧
      k = Text.trim (p.raw.slice q.span.start (q.span.start + e)) ∧
      q.value = Text.trim (p.raw.slice (q.span.start + e + 1) q.span.stop) := by
  unfold params at hq
  split at hq
  · cases hq
  · exact parts_of_mem_paramsFrom hk (fits_segmentLengths p) hq

end Page

/-! ## 3. Rebuilding -/

section Rebuilding

variable {p : Page} {wanted : Text → Bool} {l : Template}

/-- A text up to a character, the character, and the text behind. -/
theorem Text.slice_at {t : Text} {a i b : Nat} {c : Char} (hai : a ≤ i) (hib : i < b)
    (h : t[i]? = some c) : t.slice a b = t.slice a i ++ c :: t.slice (i + 1) b := by
  have hone : t.slice i (i + 1) = [c] := by
    obtain ⟨hlt, hc⟩ := List.getElem?_eq_some_iff.mp h
    rw [Text.slice_add, List.drop_eq_getElem_cons hlt, hc, List.take_succ_cons, List.take_zero]
  rw [← Text.slice_append_slice t hai (Nat.le_of_lt hib),
    ← Text.slice_append_slice t (Nat.le_succ i) hib, hone]
  rfl

/-- The parameter for definitions has that key. -/
theorem label_of_refs? {refs : Param} (hrefs : l.refs? = some refs) :
    refs ∈ l.params ∧ ∃ k, refs.label = .key k ∧ k.lower = refsKey := by
  have hkeyed := List.find?_some hrefs
  simp only [Param.hasKey, Bool.and_eq_true, beq_iff_eq] at hkeyed
  refine ⟨List.mem_reverse.mp (List.mem_of_find?_eq_some hrefs), ?_⟩
  cases hlabel : refs.label with
  | position n => simp [Param.isKeyed, hlabel] at hkeyed
  | key k =>
    have hname := hkeyed.2
    rw [Param.name, hlabel] at hname
    exact ⟨k, rfl, hname⟩

/-- Each parameter of a template has a bar in front of it. -/
theorem bar_of_mem (hl : l ∈ p.templatesWhere wanted) {q : Param} (hq : q ∈ l.params) :
    p.seen[l.paramsStart + q.span.start - 1]? = some '|' := by
  have hmem := hq
  rw [(Page.isInvocation_of_mem hl).params_eq] at hmem
  rcases Page.bar_of_mem_params hmem with hzero | ⟨hpos, hbar⟩
  · rw [hzero]
    exact (Page.signs_of_mem hl).2.2 (List.ne_nil_of_mem hq)
  · rw [Nat.add_sub_assoc hpos]
    exact (Text.getElem?_of_slice hbar).2

/-- A parameter of a template with a key is on the page the key, the sign and the value. -/
theorem parts_of_mem (hl : l ∈ p.templatesWhere wanted) {q : Param} {k : Text}
    (hk : q.label = .key k) (hq : q ∈ l.params) :
    ∃ e, q.span.start + e < q.span.stop ∧ p.seen[l.paramsStart + q.span.start + e]? = some '=' ∧
      k = Text.trim (p.raw.slice (l.paramsStart + q.span.start)
        (l.paramsStart + q.span.start + e)) ∧
      q.value = Text.trim (p.raw.slice (l.paramsStart + q.span.start + e + 1)
        (l.paramsStart + q.span.stop)) := by
  have hi := Page.isInvocation_of_mem hl
  obtain ⟨-, -, hstop⟩ := hi.bounds_of_mem_params hq
  have hstops := hi.stop_eq
  have hroom := hi.room
  rw [hi.params_eq] at hq
  obtain ⟨e, hlt, hsign, hkey, hvalue⟩ := Page.parts_of_mem_params hk hq
  have hraw : ∀ {a b : Nat}, b ≤ q.span.stop →
      (p.slice l.paramsStart (l.span.stop - 2)).raw.slice a b =
        p.raw.slice (l.paramsStart + a) (l.paramsStart + b) := fun hb => by
    rw [Page.raw_slice, Text.slice_slice _ (by omega)]
  rw [hraw (by omega), ← Nat.add_assoc] at hkey
  rw [hraw (Nat.le_refl _), ← Nat.add_assoc, ← Nat.add_assoc] at hvalue
  have hseen := (Text.getElem?_of_slice hsign).2
  rw [← Nat.add_assoc] at hseen
  exact ⟨e, hlt, hseen, hkey, hvalue⟩

/-- **A list with a parameter for definitions** has it between a bar and what follows. -/
theorem exists_holdsRefs (hv : p.IsVeiled) (hl : l ∈ p.templatesWhere wanted) {refs : Param}
    (hrefs : l.refs? = some refs) :
    ∃ front key old back, l.HoldsRefs p.raw front key old back ∧
      (∀ style, l.withoutRefs p.raw refs = front ++ back ∧
        l.withRefs p.raw refs ((l.signOf? p.raw refs).getD 0) style =
          front ++ '|' :: (key ++ '=' :: (style ++ back))) := by
  have hi := Page.isInvocation_of_mem hl
  obtain ⟨hmem, k, hlabel, hk⟩ := label_of_refs? hrefs
  obtain ⟨-, hval, hstop⟩ := hi.bounds_of_mem_params hmem
  have hstops := hi.stop_eq
  have hroom := hi.room
  have hle := hi.stop_le
  have hbar := bar_of_mem hl hmem
  obtain ⟨e, hlt, hsign, hkey, hvalue⟩ := parts_of_mem hl hlabel hmem
  have hbar := hv hbar (by decide)
  have hsign := hv hsign (by decide)
  generalize hstart : l.paramsStart + refs.span.start = a at *
  generalize hend : l.paramsStart + refs.span.stop = b at *
  have hab : a + e < b := by omega
  have hfront : (p.raw.slice l.span.start (a - 1)).length + l.span.start + 1 = a := by
    rw [Text.length_slice]
    omega
  have hlabelled : IsRefsLabel (p.raw.slice a (a + e)) :=
    isRefsLabel_of_key (by rw [← hkey]; exact hk)
  -- the segment is the key, the sign and the value
  have hsegment : p.raw.slice a b =
      p.raw.slice a (a + e) ++ '=' :: p.raw.slice (a + e + 1) b :=
    Text.slice_at (by omega) hab hsign
  have hone : a - 1 + 1 = a := by omega
  have hbarred : p.raw.slice (a - 1) b = '|' :: p.raw.slice a b := by
    rw [Text.slice_at (Nat.le_refl _) (by omega) hbar, Text.slice_self, hone]
    rfl
  have hfound : (l.signOf? p.raw refs).getD 0 = e := by
    have hlength : (p.raw.slice a (a + e)).length = e := by
      rw [Text.length_slice]
      omega
    rw [Template.signOf?, hstart, hend, hsegment, indexOf?_append hlabelled.sign_not_mem, hlength]
    rfl
  refine ⟨p.raw.slice l.span.start (a - 1), p.raw.slice a (a + e), p.raw.slice (a + e + 1) b,
    p.raw.slice b l.span.stop, ⟨?_, hlabelled.key, refs, hrefs, hvalue, by omega, ?_⟩,
    fun value => ⟨?_, ?_⟩⟩
  · rw [Text.cut, ← Text.slice_append_slice p.raw (show l.span.start ≤ a - 1 by omega)
      (show a - 1 ≤ l.span.stop by omega), ← Text.slice_append_slice p.raw
      (show a - 1 ≤ b by omega) (show b ≤ l.span.stop by omega), hbarred, hsegment]
    simp
  · rw [hend, Text.length_slice]
    omega
  · rw [Template.withoutRefs, hstart, hend]
  · have hkept : p.raw.slice l.span.start (a + e + 1) = p.raw.slice l.span.start (a - 1) ++
        '|' :: (p.raw.slice a (a + e) ++ ['=']) := by
      rw [← Text.slice_append_slice p.raw (show l.span.start ≤ a - 1 by omega)
        (show a - 1 ≤ a + e + 1 by omega), Text.slice_at (Nat.le_refl _) (by omega) hbar,
        Text.slice_self, hone, Text.slice_at (show a ≤ a + e by omega) (by omega) hsign,
        Text.slice_self]
      rfl
    rw [hfound, Template.withRefs, hstart, hend, hkept]
    simp

/-- **What a list reads** with its share of the definitions. -/
theorem rebuilt_updated (hv : p.IsVeiled) (hl : l ∈ p.templatesWhere wanted) (style : ListStyle)
    (own : List ListEntry) : l.Rebuilt p.raw style own (l.updated p.raw style own) := by
  have hi := Page.isInvocation_of_mem hl
  have hroom := hi.room
  have hstop := hi.stop_eq
  cases hrefs : l.refs? with
  | none =>
    rw [Template.updated, hrefs]
    by_cases hown : own = []
    · rw [hown]
      exact .same hrefs rfl
    · have hempty : ¬ own.isEmpty = true := by simpa using hown
      have hparam : refsParam (style.value own) =
          "|refs=".toList ++ style.value own ++ ['}', '}'] := by
        delta refsParam
        rfl
      simp only
      rw [if_neg hempty, hparam, ← List.append_assoc, ← List.append_assoc]
      refine .added hrefs hown ?_
      obtain ⟨hfirst, hsecond, -⟩ := Page.signs_of_mem hl
      rw [Text.cut, Text.slice_at (show l.span.start ≤ l.span.stop - 2 by omega) (by omega)
        (hv hfirst (by decide)), show l.span.stop - 2 + 1 = l.span.stop - 1 by omega,
        Text.slice_at (Nat.le_refl _) (by omega) (hv hsecond (by decide)), Text.slice_self,
        show l.span.stop - 1 + 1 = l.span.stop by omega, Text.slice_self]
      rfl
  | some refs =>
    obtain ⟨front, key, old, back, hholds, htexts⟩ := exists_holdsRefs hv hl hrefs
    rw [Template.updated, hrefs]
    by_cases hown : own = []
    · simp only [hown, List.isEmpty_nil, if_true]
      rw [(htexts []).1]
      exact .removed hholds rfl
    · have hempty : ¬ own.isEmpty = true := by simpa using hown
      simp only
      rw [if_neg hempty, (htexts (style.value own)).2]
      exact .replaced hholds hown

end Rebuilding

/-! ## 4. The first list of a group -/

section Shares

variable {entries : List ListEntry} {g : Option Text}

/-- The definitions of a group, no group counting as one. -/
def definitionsOf (entries : List ListEntry) (g : Option Text) : List ListEntry :=
  entries.filter (·.group = g)

/-- The definitions that a list gets among all lists of a page: those of its group, if it is the
first list of that. -/
def shareOf (entries : List ListEntry) (lists : List Template) (l : Template) : List ListEntry :=
  if lists.find? (·.group? = l.group?) = some l then definitionsOf entries l.group? else []

/-- Going through the lists, the first one of a group is the one whose group has not been
served. -/
theorem listShares_eq {ts : List Template} (hn : ts.Nodup) (served : List (Option Text)) :
    listShares entries served ts = ts.map fun l =>
      (l, if l.group? ∈ served then [] else shareOf entries ts l) := by
  induction ts generalizing served with
  | nil => rfl
  | cons t ts ih =>
    obtain ⟨ht, hn⟩ := List.nodup_cons.mp hn
    rw [listShares, ih hn, List.map_cons]
    congr 1
    · simp [shareOf, definitionsOf]
    · refine List.map_congr_left fun l hl => ?_
      have hne : t ≠ l := fun heq => ht (heq ▸ hl)
      by_cases hgroup : t.group? = l.group?
      · simp [shareOf, hgroup, hne]
      · simp [shareOf, hgroup, Ne.symm hgroup]

theorem definitionsOf_ne_nil : definitionsOf entries g ≠ [] ↔ ∃ d ∈ entries, d.group = g := by
  simp [definitionsOf, List.filter_eq_nil_iff]

/-- The groups that get a new list: those with definitions and without a list. -/
theorem mem_newShares (lists : List Template) :
    g ∈ (newShares entries (lists.map (·.group?))).map (·.1) ↔
      definitionsOf entries g ≠ [] ∧ lists.find? (·.group? = g) = none := by
  simp [definitionsOf_ne_nil, newShares, List.find?_eq_none]

end Shares

/-! ## 5. The order of definitions -/

/-- A definition may stand before another one by name. -/
def ListEntry.namedBefore (d e : ListEntry) : Bool :=
  (NaturalKey.of (d.name.getD [])).le (NaturalKey.of (e.name.getD []))

/-- **Definitions are written as they come, or sorted by name**; what has equal keys keeps its
order. -/
theorem ListStyle.arrange_spec (style : ListStyle) (ds : List ListEntry) :
    (style.arrange ds).Perm ds ∧ (style.sort = false → style.arrange ds = ds) ∧
      (style.sort = true →
        ((style.arrange ds).Pairwise fun d e => d.namedBefore e = true) ∧
        ∀ d e, d.namedBefore e = true → [d, e].Sublist ds → [d, e].Sublist (style.arrange ds)) := by
  have hsorted : sortEntries ds = sortStable ListEntry.namedBefore ds := rfl
  refine ⟨?_, fun hsort => ?_, fun hsort => ?_⟩
  · unfold arrange
    split
    · exact sortStable_perm _ ds
    · exact .refl ds
  · rw [arrange, if_neg (by simp [hsort])]
  · rw [arrange, if_pos hsort, hsorted]
    constructor
    · refine pairwise_sortStable (fun d e => ?_) (fun c d e => ?_) ds
      · exact NaturalKey.le_total _ _
      · exact NaturalKey.le_trans _ _ _
    · intro d e hde hsub
      rw [sortStable_eq]
      exact List.pair_sublist_insertionSort hde hsub

/-! ## 6. The text of a list -/

/-- Parts with a separator between two and one at the end. -/
theorem Text.join_concat (sep : Char) : ∀ {parts : List Text}, parts ≠ [] →
    Text.join [sep] parts ++ [sep] = parts.flatMap (· ++ [sep])
  | [], h => absurd rfl h
  | [t], _ => by simp [Text.join]
  | t :: u :: r, _ => by
    have hrest := Text.join_concat sep (List.cons_ne_nil u r)
    rw [join_cons, List.append_assoc, List.cons_append, hrest]
    simp

/-- A definition as a line: the tag with its name around the body, which is tidied or written
anew. -/
def ListStyle.line (style : ListStyle) (d : ListEntry) : Text :=
  openingTag d.name none ++ (if style.normalize then normalized d.body else tidy d.body) ++
    "</ref>\n".toList

/-- **The definitions of a list stand one to a line, in the order in which they are arranged.** -/
theorem ListStyle.value_eq (style : ListStyle) {ds : List ListEntry} (h : ds ≠ []) :
    style.value ds = '\n' :: (style.arrange ds).flatMap style.line := by
  have hne : (style.arrange ds).map style.write ≠ [] := by
    rw [Ne, List.map_eq_nil_iff]
    exact fun hnil => h (((style.arrange_spec ds).1.symm.trans (hnil ▸ .nil)).eq_nil)
  have hline : ∀ d, style.write d ++ ['\n'] = style.line d := fun d => by
    rw [write, fullTag, tagAround, cleaned, line, List.append_assoc _ _ ['\n']]
    rfl
  rw [value, List.cons_append, Text.join_concat '\n' hne, List.flatMap_map]
  simp only [hline]

/-- A new list names its group, if it has one, and holds the value of its definitions. -/
theorem newList_written (g : Option Text) (style : ListStyle) (ds : List ListEntry) :
    newList g style ds = "\n\x7b\x7breflist".toList ++
      (g.bind Text.nonempty?).elim [] ("|group=".toList ++ ·) ++ "|refs=".toList ++
        style.value ds ++ ['}', '}'] := by
  unfold newList refsParam
  cases g.bind Text.nonempty? <;> simp

/-! ## 7. All lists of a page -/

section Lists

variable {m : Model} {p : Page} {names : List Text}

/-- The lists of a page stand one behind the other. -/
theorem Model.Accounts.apart_lists (h : m.Accounts p names) :
    (∀ l ∈ m.lists, l ∈ p.templatesWhere (isNameOf names)) ∧
      m.lists.Pairwise fun k l => k.span.stop ≤ l.span.start := by
  have hmem : ∀ l ∈ m.lists, l ∈ p.templatesWhere (isNameOf names) := fun l hl =>
    Page.mem_tokens_list.mp (h.mem_lists.mp hl)
  refine ⟨hmem, h.pairwise_lists.imp_of_mem fun {k l} hk hl hlt => ?_⟩
  have hstart := (Page.isInvocation_of_mem (hmem k hk)).start_lt
  have hstart' := (Page.isInvocation_of_mem (hmem l hl)).start_lt
  rcases Span.apart_of_pairwise (Page.pairwise_templatesWhere p (isNameOf names)) (hmem k hk)
    (hmem l hl) with rfl | hle | hle
  · exact absurd hlt (Nat.lt_irrefl _)
  · exact hle
  · omega

/-- Edits one behind the other, with an insertion at the end of the text. -/
theorem Edit.applyAll_append_last {t : Text} {edits last : List Edit}
    (hroom : ∀ e ∈ edits, e.span.start < e.span.stop ∧ e.span.stop ≤ t.length)
    (hpair : edits.Pairwise fun e f => e.span.stop ≤ f.span.start)
    (hlast : ∀ e ∈ last, e.span = Span.empty t.length) (hone : last.length ≤ 1) :
    applyAll t (edits ++ last) = spliced t t.length 0 edits ++ last.flatMap (·.text) := by
  have hsingle : last.Pairwise fun _ _ => False := by
    rcases last with _ | ⟨e, _ | ⟨f, rest⟩⟩
    · exact .nil
    · exact List.pairwise_singleton _ _
    · simp at hone
  have hends : spliced t t.length t.length last = last.flatMap (·.text) := by
    rcases last with _ | ⟨e, _ | ⟨f, rest⟩⟩
    · exact Text.slice_self _ _
    · simp [spliced, hlast e List.mem_cons_self, Span.empty]
    · simp at hone
  have hstops : (edits ++ last).Pairwise fun e f => e.span.stop ≤ f.span.start := by
    refine List.pairwise_append.mpr ⟨hpair, hsingle.imp False.elim, fun e he f hf => ?_⟩
    rw [hlast f hf]
    exact (hroom e he).2
  have hspans : (edits ++ last).Pairwise fun e f => e.span ≠ f.span := by
    refine List.pairwise_append.mpr ⟨hpair.imp_of_mem fun {e f} he hf hle heq => ?_,
      hsingle.imp False.elim, fun e he f hf heq => ?_⟩
    · have hlt := (hroom f hf).1
      rw [heq] at hle
      omega
    · have hlt := (hroom e he).1
      rw [heq, hlast f hf] at hlt
      exact Nat.lt_irrefl _ hlt
  have hfirst : Between 0 t.length edits := between_of_pairwise (Nat.zero_le _) hpair
    fun e he => ⟨Nat.zero_le _, (hroom e he).2⟩
  have hend : Between t.length t.length last :=
    between_of_pairwise (Nat.le_refl _) (hsingle.imp False.elim) fun e he => by
      rw [hlast e he]
      exact ⟨Nat.le_refl _, Nat.le_refl _⟩
  have hsettled := settle_eq_self hspans hstops
  rw [applyAll_eq_spliced (by rw [hsettled]; exact hfirst.append hend), hsettled,
    spliced_append hfirst hend, hends]

/-- What each list of a page reads with its share of the definitions. -/
def Model.writtenLists (m : Model) (style : ListStyle) (entries : List ListEntry) : List Edit :=
  m.lists.map fun l => ⟨l.span, l.updated m.page.raw style (shareOf entries m.lists l)⟩

/-- The groups with definitions and without a list. -/
def Model.newGroups (m : Model) (entries : List ListEntry) : List (Option Text) :=
  (newShares entries (m.lists.map (·.group?))).map (·.1)

theorem Model.Accounts.listShares_lists (h : m.Accounts p names) (entries : List ListEntry) :
    listShares entries [] m.lists = m.lists.map fun l => (l, shareOf entries m.lists l) := by
  have hnodup : m.lists.Nodup := h.pairwise_lists.imp fun {k l} hlt heq => by
    rw [heq] at hlt
    exact Nat.lt_irrefl _ hlt
  rw [listShares_eq hnodup]
  simp

theorem Model.newLists_newGroups (m : Model) (style : ListStyle) (entries : List ListEntry) :
    newLists style entries (m.lists.map (·.group?)) =
      (m.newGroups entries).map fun g => newList g style (definitionsOf entries g) := by
  rw [newLists_eq, newGroups, List.map_map]
  refine List.map_congr_left fun s hs => ?_
  rw [snd_of_mem_newShares hs]
  rfl

/-- The lists and the new groups share the definitions out among themselves. -/
theorem Model.Accounts.shares_perm (h : m.Accounts p names) (entries : List ListEntry) :
    (m.lists.flatMap (shareOf entries m.lists) ++
      (m.newGroups entries).flatMap (definitionsOf entries)).Perm entries := by
  have hperm := CiteMarkup.shares_perm entries m.lists
  rw [h.listShares_lists, List.flatMap_map] at hperm
  have hnew : (m.newGroups entries).flatMap (definitionsOf entries) =
      (newShares entries (m.lists.map (·.group?))).flatMap (·.2) := by
    rw [newGroups, List.flatMap_map]
    refine List.flatMap_congr fun s hs => ?_
    rw [snd_of_mem_newShares hs]
    rfl
  rw [hnew]
  exact hperm

theorem Model.Accounts.room_lists (h : m.Accounts p names) :
    ∀ l ∈ m.lists, l.span.start < l.span.stop ∧ l.span.stop ≤ p.raw.length := fun l hl =>
  ⟨(Page.isInvocation_of_mem (h.apart_lists.1 l hl)).start_lt,
    (Page.isInvocation_of_mem (h.apart_lists.1 l hl)).stop_le⟩

theorem Model.Accounts.between_writtenLists (h : m.Accounts p names) (style : ListStyle)
    (entries : List ListEntry) : Edit.Between 0 p.raw.length (m.writtenLists style entries) := by
  refine Edit.between_of_pairwise (Nat.zero_le _) ?_ ?_
  · exact List.pairwise_map.mpr h.apart_lists.2
  · intro e he
    obtain ⟨l, hl, rfl⟩ := List.mem_map.mp he
    exact ⟨Nat.zero_le _, (h.room_lists l hl).2⟩

/-- What is planned for the lists are the edits that change something. -/
theorem Model.Accounts.listEdits_lists (h : m.Accounts p names) (style : ListStyle)
    (entries : List ListEntry) : m.page.listEdits style entries [] m.lists =
      (m.writtenLists style entries).filter fun e => m.page.raw.cut e.span ≠ e.text := by
  rw [listEdits_eq, h.listShares_lists, List.flatMap_map,
    ← Model.flatMap_change m.page (m.writtenLists style entries), writtenLists, List.flatMap_map]

/-- **A page with its definitions in their lists**: each list reads its share, and the new lists
stand behind the page. -/
theorem Model.Accounts.applyAll_rebuildLists (h : m.Accounts p names) (style : ListStyle)
    (entries : List ListEntry) : Edit.applyAll p.raw (m.rebuildLists style entries) =
      Edit.spliced p.raw p.raw.length 0 (m.writtenLists style entries) ++
        (m.newGroups entries).flatMap fun g => newList g style (definitionsOf entries g) := by
  have hbetween := h.between_writtenLists style entries
  have hfilter := Edit.spliced_filter hbetween (fun e => p.raw.cut e.span ≠ e.text)
    fun e _ hkeep => by simpa using hkeep
  let last : List Edit := if (newLists style entries (m.lists.map (·.group?))).isEmpty then []
    else [⟨Span.empty m.page.raw.length,
      (newLists style entries (m.lists.map (·.group?))).flatten⟩]
  have hlast : (∀ e ∈ last, e.span = Span.empty p.raw.length) ∧ last.length ≤ 1 ∧
      last.flatMap (·.text) = (newLists style entries (m.lists.map (·.group?))).flatten := by
    rw [← h.page_eq]
    simp only [last]
    split
    · rename_i hempty
      simp [List.isEmpty_iff.mp hempty]
    · simp
  have hkept : ∀ e ∈ (m.writtenLists style entries).filter (fun e => p.raw.cut e.span ≠ e.text),
      e.span.start < e.span.stop ∧ e.span.stop ≤ p.raw.length := by
    intro e he
    obtain ⟨l, hl, rfl⟩ := List.mem_map.mp (List.mem_filter.mp he).1
    exact h.room_lists l hl
  have hpair : ((m.writtenLists style entries).filter fun e => p.raw.cut e.span ≠ e.text).Pairwise
      fun e f => e.span.stop ≤ f.span.start := (List.pairwise_map.mpr h.apart_lists.2).filter _
  have hall : m.rebuildLists style entries =
      (m.writtenLists style entries).filter (fun e => p.raw.cut e.span ≠ e.text) ++ last := by
    rw [← h.page_eq, ← h.listEdits_lists]
    rfl
  rw [hall, Edit.applyAll_append_last hkept hpair hlast.1 hlast.2.1, hfilter.2, hlast.2.2,
    m.newLists_newGroups, List.flatMap]

/-- **Definitions are routed by group, without loss and without repetition.**  The page keeps
its text around the lists.  A list that is the first one of its group reads all definitions of the
group, any other one none, and what a list reads besides is what it has read.  Groups that have
definitions and no list get one list each, behind the page.  In a list the definitions stand one
to a line, as they come or sorted by name. -/
theorem definitions_routed (t : Text) (names : List Text) (style : ListStyle)
    (entries : List ListEntry) :
    let m := Model.ofText t names
    ∃ (written : Template → Text) (added : List (Option Text)),
      Edit.applyAll t (m.rebuildLists style entries) =
          Edit.spliced t t.length 0 (m.lists.map fun l => ⟨l.span, written l⟩) ++
            added.flatMap (fun g => newList g style (definitionsOf entries g)) ∧
        Edit.Between 0 t.length (m.lists.map fun l => ⟨l.span, written l⟩) ∧
        (∀ l ∈ m.lists, l.Rebuilt t style (shareOf entries m.lists l) (written l)) ∧
        (added.Nodup ∧ ∀ g, g ∈ added ↔
          definitionsOf entries g ≠ [] ∧ m.lists.find? (·.group? = g) = none) ∧
        (m.lists.flatMap (shareOf entries m.lists) ++
          added.flatMap (definitionsOf entries)).Perm entries ∧
        (∀ ds, ds ≠ [] → style.value ds = '\n' :: (style.arrange ds).flatMap style.line) ∧
        (∀ g ds, newList g style ds = "\n\x7b\x7breflist".toList ++
          (g.bind Text.nonempty?).elim [] ("|group=".toList ++ ·) ++ "|refs=".toList ++
            style.value ds ++ ['}', '}']) ∧
        ∀ ds, (style.arrange ds).Perm ds ∧ (style.sort = false → style.arrange ds = ds) ∧
          (style.sort = true →
            ((style.arrange ds).Pairwise fun d e => d.namedBefore e = true) ∧
            ∀ d e, d.namedBefore e = true → [d, e].Sublist ds →
              [d, e].Sublist (style.arrange ds)) := by
  intro m
  have h : m.Accounts (Page.ofText t) names := accounts_ofText t names
  refine ⟨fun l => l.updated t style (shareOf entries m.lists l), m.newGroups entries,
    h.applyAll_rebuildLists style entries, h.between_writtenLists style entries, fun l hl => ?_,
    ⟨nodup_newShares entries _, fun g => mem_newShares m.lists⟩, h.shares_perm entries,
    fun ds => style.value_eq, fun g => newList_written g style, style.arrange_spec⟩
  exact rebuilt_updated (Page.isVeiled_ofText t) (h.apart_lists.1 l hl) style _

/-- The second list of a group loses its last parameter `refs`; an earlier one stays. -/
example :
    let t := "\x7b\x7breflist\x7d\x7d\x7b\x7breflist|refs=x| refs =y|a\x7d\x7d".toList
    Edit.applyAll t ((Model.ofText t ["reflist".toList]).rebuildLists {}
      [⟨some "n".toList, none, "body".toList⟩,
       ⟨some "m".toList, some "g".toList, "other".toList⟩]) =
      "\x7b\x7breflist|refs=\n<ref name=\"n\">body</ref>\n\x7d\x7d".toList ++
        "\x7b\x7breflist|refs=x|a\x7d\x7d".toList ++
        "\n\x7b\x7breflist|group=g|refs=\n<ref name=\"m\">other</ref>\n\x7d\x7d".toList := by
  decide +kernel

end Lists

end CiteMarkup
