import CiteMarkup.Proofs.Page.Cuts
import CiteMarkup.Proofs.Reference.Survey
/-!
# The bodies that a text gives

A tag with content gives a body under its name and group, and an output list gives those of the
definitions in it (`Page.givenBy`).  Where marks stand does not matter to what they give, so a
text that is read by itself gives what it gives wherever it stands (`givenBodies_append`), and a
page with edits gives what the edits give and what the marks give that no edit takes in
(`mem_givenBodies_spliced`).
-/

namespace CiteMarkup

/-! ## 1. What marks give -/

/-- A body with the name and the group that it is given under. -/
structure GivenBody where
  name : Option Text
  group : Option Text
  body : Text
  deriving DecidableEq

/-- The body that an occurrence gives, if that is more than blanks. -/
def Occurrence.given? (o : Occurrence) : Option GivenBody :=
  o.visibleBody?.map fun b => ⟨o.name, o.group, b⟩

/-- The body that a tag with content gives, and its group, which may be that of a list. -/
def RefTag.givenIn? (group : Option Text) (t : RefTag) : Option GivenBody :=
  match t.content with
  | .none => none
  | .body b _ => if b.isBlankOnly then none else some ⟨t.name?, t.group? <|> group, b⟩

/-- The stretch of a list that the definitions stand in, as a page of its own. -/
def Page.definitionsIn? (p : Page) (t : Template) : Option Page :=
  t.definitionSpan?.map fun s => p.slice s.start s.stop

/-- What the tags with a body on a page give to a reader, who is told the text of each. -/
def Page.readIn {α : Type} (p : Page) (read : Text → RefTag → Option α) : List α :=
  p.fullTags.filterMap fun t => read (p.raw.cut t.span) t

/-- The bodies that the tags of a page give as the definitions in a list. -/
def Page.givenIn (p : Page) (group : Option Text) : List GivenBody :=
  p.fullTags.filterMap (·.givenIn? group)

/-- The bodies that a mark of the page gives. -/
def Page.givenBy (p : Page) : Token → List GivenBody
  | .tag t => (t.givenIn? none).toList
  | .list t => (p.definitionsIn? t).elim [] (·.givenIn (t.value? "group".toList))
  | .chain _ | .locator _ => []

/-- The bodies that a text gives, read as a page. -/
def givenBodies (names : List Text) (t : Text) : List GivenBody :=
  ((Page.ofText t).tokens names).flatMap (Page.ofText t).givenBy

@[simp] theorem RefTag.givenIn?_shift (n : Nat) (group : Option Text) (t : RefTag) :
    (t.shift n).givenIn? group = t.givenIn? group := by
  obtain ⟨span, attributes, content⟩ := t
  cases content <;> rfl

theorem RefTag.given?_occurrence (t : RefTag) : t.occurrence.given? = t.givenIn? none := by
  obtain ⟨span, attributes, content⟩ := t
  cases content with
  | none => rfl
  | body b start =>
    have hgroup : ∀ g : Option Text, (g <|> none) = g := fun g => by cases g <;> rfl
    simp only [Occurrence.given?, Occurrence.visibleBody?, Occurrence.body?, RefTag.occurrence,
      RefTag.givenIn?, Option.bind_some, hgroup]
    split <;> rfl

/-! ## 2. Lists -/

namespace Page

variable {p q : Page} {names : List Text} {a b : Nat} {t : Template}

/-- The tags of a stretch are those of the stretch as a page of its own. -/
theorem fullTagsBetween_eq (p : Page) (a b : Nat) :
    p.fullTagsBetween a b = (p.slice a b).fullTags.map (RefTag.shift a) := by
  have hscan : scan (fun _ => fullTagRule) (p.seen.slice a b) a =
      (scan (fun _ => fullTagRule) (p.slice a b).seen).map (Found.shift a) :=
    scanFrom_shift a 0 0 none none _
  rw [fullTagsBetween, hscan, fullTags_eq, List.map_map, List.map_map]
  refine List.map_congr_left fun f hf => ?_
  obtain ⟨i, n, _, hi, hr, hs⟩ := exists_of_mem_scan hf
  obtain ⟨hlen, hle, -⟩ := fullTagRule_found (o := f.value.1) (k := f.value.2) hr
  have hattr := attributes_lt_of_fullTagRule (o := f.value.1) (k := f.value.2) hr
  have hstart : f.span.start = i := by rw [hs, Span.start_ofLength, Nat.zero_add]
  have hlength : (p.slice a b).seen.length ≤ b - a := by
    change (p.seen.slice a b).length ≤ b - a
    rw [Text.length_slice]
    omega
  rw [List.length_drop] at hle
  have hslice : ∀ i j, j ≤ b - a → p.raw.slice (a + i) (a + j) = (p.slice a b).raw.slice i j :=
    fun i j hj => (Text.slice_slice p.raw (by omega)).symm
  simp only [Function.comp, fullTag, Found.shift, RefTag.shift, attributesOf, Span.start_shift,
    Nat.add_assoc]
  rw [hslice _ _ (by omega), hslice _ _ (by omega)]

/-- What a list gives, by the definitions in it. -/
theorem mem_givenBy_list {x : GivenBody} :
    x ∈ p.givenBy (.list t) ↔ ∃ o ∈ p.listedIn t, o.given? = some x := by
  have hone : ∀ (tag : RefTag) (b : Text) (i : Nat) (own : Bool), tag.content = .body b i →
      Occurrence.given? ⟨tag.span, .listed b own, tag.name?,
        tag.group? <|> t.value? "group".toList⟩ = tag.givenIn? (t.value? "group".toList) := by
    intro tag b i own hc
    simp only [Occurrence.given?, Occurrence.visibleBody?, Occurrence.body?, RefTag.givenIn?, hc,
      Option.bind_some]
    split <;> rfl
  rw [givenBy, definitionsIn?, listedIn]
  cases t.definitionSpan? with
  | none => simp
  | some s =>
    simp only [Option.map_some, Option.elim_some, givenIn, List.mem_filterMap]
    constructor
    · rintro ⟨tag, htag, hx⟩
      have hfull : tag.shift s.start ∈ p.refTagsBetween s.start s.stop := by
        rw [mem_refTagsBetween, fullTagsBetween_eq]
        exact .inl (List.mem_map_of_mem htag)
      rw [← RefTag.givenIn?_shift s.start] at hx
      cases hc : (tag.shift s.start).content with
      | none => simp [RefTag.givenIn?, hc] at hx
      | body b i => exact ⟨_, ⟨_, hfull, by rw [hc]⟩, (hone _ b i _ hc).trans hx⟩
    · rintro ⟨o, ⟨tag, htag, ho⟩, hx⟩
      cases hc : tag.content with
      | none => simp [hc] at ho
      | body b i =>
        rw [hc] at ho
        obtain rfl := Option.some.inj ho
        have hfull := mem_fullTagsBetween htag (by rw [RefTag.isFull, hc])
        rw [fullTagsBetween_eq] at hfull
        obtain ⟨f, hf, rfl⟩ := List.mem_map.mp hfull
        refine ⟨f, hf, ?_⟩
        rw [← RefTag.givenIn?_shift s.start, ← hone _ b i _ hc, hx]

/-! ## 3. Marks at another place -/

theorem definitionSpan?_shift (n : Nat) (t : Template) :
    (t.shift n).definitionSpan? = t.definitionSpan?.map (Span.shift n) := by
  have hparam : (t.shift n).param? "refs".toList = t.param? "refs".toList := rfl
  rw [Template.definitionSpan?, Template.definitionSpan?, hparam]
  cases t.param? "refs".toList with
  | none => rfl
  | some q =>
    simp only [Option.bind_some]
    split
    · rfl
    · simp [Template.shift, Span.shift, Span.ofLength, Nat.add_assoc]

theorem definitionsIn?_append_right (p q : Page) (t : Template) :
    (p.append q).definitionsIn? (t.shift p.raw.length) = q.definitionsIn? t := by
  rw [definitionsIn?, definitionsIn?, definitionSpan?_shift, Option.map_map]
  refine congrArg (Option.map · _) (funext fun s => ?_)
  simp only [Function.comp, Span.start_shift, Span.stop_shift, slice_append_right]

theorem definitionsIn?_append_left (ht : .list t ∈ p.tokens names) (q : Page) :
    (p.append q).definitionsIn? t = p.definitionsIn? t := by
  refine Option.map_congr fun s hs => ?_
  have hi := isInvocation_of_mem_templates (mem_tokens_list.mp ht)
  have hstop := (hi.definitionSpan?_bounds hs).2
  have hle := hi.stop_le
  exact slice_append_left (by omega)

theorem givenBy_append_right (p q : Page) (k : Token) :
    (p.append q).givenBy (k.shift p.raw.length) = q.givenBy k := by
  cases k with
  | tag t => simp only [Token.shift, givenBy, RefTag.givenIn?_shift]
  | chain t => rfl
  | locator t => rfl
  | list t =>
    have hvalue : (t.shift p.raw.length).value? "group".toList = t.value? "group".toList := rfl
    simp only [Token.shift, givenBy, definitionsIn?_append_right, hvalue]

theorem givenBy_append_left {k : Token} (hk : k ∈ p.tokens names) (q : Page) :
    (p.append q).givenBy k = p.givenBy k := by
  cases k with
  | tag t => rfl
  | chain t => rfl
  | locator t => rfl
  | list t => simp only [givenBy, definitionsIn?_append_left hk]

end Page

/-! ## 4. Texts -/

section Texts

variable {names : List Text} {t u v : Text} {x : GivenBody}

/-- A reader to whom the place of a tag does not matter reads a text that is read by itself like
any other part of the page. -/
theorem readIn_append {α : Type} {read : Text → RefTag → Option α}
    (hread : ∀ n w t, read w (RefTag.shift n t) = read w t)
    (hu : SelfContained names u) (v : Text) :
    (Page.ofText (u ++ v)).readIn read =
      (Page.ofText u).readIn read ++ (Page.ofText v).readIn read := by
  rw [Page.readIn, hu.ofText_append, Page.fullTags_append hu.marks.full, List.filterMap_append,
    List.filterMap_map]
  congr 1
  · refine List.filterMap_congr fun t ht => ?_
    exact congrArg (fun w => read w t)
      (Text.slice_append_left u v (Page.stop_le_of_mem_fullTags ht))
  · refine List.filterMap_congr fun t _ => ?_
    have hcut : (u ++ v).cut (t.shift u.length).span = v.cut t.span :=
      Text.slice_append_right u v t.span.start t.span.stop
    exact (hread _ _ _).trans (congrArg (fun w => read w t) hcut)

/-- What a text gives, by the occurrences on it. -/
theorem mem_givenBodies : x ∈ givenBodies names t ↔
    ∃ o ∈ ((Page.ofText t).survey names).occurrences, o.given? = some x := by
  rw [givenBodies, List.mem_flatMap, Page.survey_eq]
  simp only [Page.mem_occurrencesAmong]
  constructor
  · rintro ⟨k, hk, hx⟩
    cases k with
    | tag tag =>
      refine ⟨_, .inl ⟨tag, hk, rfl⟩, ?_⟩
      rw [RefTag.given?_occurrence]
      exact Option.mem_toList.mp hx
    | list l =>
      obtain ⟨o, ho, hx⟩ := Page.mem_givenBy_list.mp hx
      exact ⟨o, .inr (.inl ⟨l, hk, ho⟩), hx⟩
    | chain c => cases hx
    | locator c => cases hx
  · rintro ⟨o, ⟨tag, hk, rfl⟩ | ⟨l, hk, ho⟩ | ⟨c, -, hc⟩, hx⟩
    · refine ⟨.tag tag, hk, Option.mem_toList.mpr ?_⟩
      rwa [← RefTag.given?_occurrence]
    · exact ⟨.list l, hk, Page.mem_givenBy_list.mpr ⟨o, ho, hx⟩⟩
    · obtain ⟨i, e, -, rfl⟩ := Chain.mem_occurrences.mp hc
      cases hx

/-- **A text that is read by itself gives what it gives, whatever stands behind it.** -/
theorem givenBodies_append (hu : SelfContained names u) (v : Text) :
    givenBodies names (u ++ v) = givenBodies names u ++ givenBodies names v := by
  rw [givenBodies, hu.tokens_append, hu.ofText_append, List.flatMap_append, List.flatMap_map]
  congr 1
  · exact List.flatMap_congr fun k hk => Page.givenBy_append_left hk _
  · exact List.flatMap_congr fun k _ => Page.givenBy_append_right (Page.ofText u) _ k

/-- Texts that are read by themselves give, one behind the other, what each of them gives. -/
theorem givenBodies_flatten : ∀ {texts : List Text},
    (∀ w ∈ texts, SelfContained names w) → SelfContained names texts.flatten ∧
      givenBodies names texts.flatten = texts.flatMap (givenBodies names)
  | [], _ => ⟨.nil, rfl⟩
  | w :: texts, h => by
    obtain ⟨hself, hgiven⟩ := givenBodies_flatten fun v hv => h v (List.mem_cons_of_mem _ hv)
    have hw := h w List.mem_cons_self
    rw [List.flatten_cons, List.flatMap_cons, givenBodies_append hw, hgiven]
    exact ⟨hw.append hself, rfl⟩

/-- A text gives what its marks give on a page that it stands on, from `a` to `b`. -/
theorem mem_givenBodies_slice {a b : Nat} (hab : a ≤ b) (hb : b ≤ t.length)
    (hta : SelfContained names (t.take a)) (htb : SelfContained names (t.take b)) :
    x ∈ givenBodies names (t.slice a b) ↔ ∃ k ∈ (Page.ofText t).tokens names,
      a ≤ k.span.start ∧ k.span.start < b ∧ x ∈ (Page.ofText t).givenBy k := by
  have hlength : (t.take a).length = a := List.length_take_of_le (Nat.le_trans hab hb)
  have hslice := selfContained_slice hab hta htb
  have hpage : Page.ofText t = (Page.ofText (t.take a)).append
      ((Page.ofText (t.slice a b)).append (Page.ofText (t.drop b))) := by
    rw [← hslice.ofText_append, slice_append_drop hab hb, ← hta.ofText_append,
      List.take_append_drop]
  have hgive : ∀ l ∈ (Page.ofText (t.slice a b)).tokens names,
      (Page.ofText t).givenBy (l.shift a) = (Page.ofText (t.slice a b)).givenBy l := by
    intro l hl
    have hright := Page.givenBy_append_right (Page.ofText (t.take a))
      ((Page.ofText (t.slice a b)).append (Page.ofText (t.drop b))) l
    have hraw : (Page.ofText (t.take a)).raw.length = a := hlength
    rw [← hpage, hraw, Page.givenBy_append_left hl] at hright
    exact hright
  rw [givenBodies, List.mem_flatMap]
  constructor
  · rintro ⟨l, hl, hx⟩
    obtain ⟨hk, hstart, hlt⟩ := (mem_tokens_slice hab hb hta htb).mp (List.mem_map_of_mem hl)
    exact ⟨l.shift a, hk, hstart, hlt, by rwa [hgive l hl]⟩
  · rintro ⟨k, hk, hstart, hlt, hx⟩
    obtain ⟨l, hl, rfl⟩ := List.mem_map.mp
      ((mem_tokens_slice hab hb hta htb).mpr ⟨hk, hstart, hlt⟩)
    exact ⟨l, hl, by rwa [hgive l hl] at hx⟩

/-- **A page with edits gives what the edits give, and what the marks give that no edit takes
in.** -/
theorem mem_givenBodies_spliced {a : Nat} {es : List Edit} (hb : Edit.Between a t.length es)
    (hta : SelfContained names (t.take a)) (htb : SelfContained names t)
    (hes : ∀ e ∈ es, SelfContained names (t.take e.span.start) ∧
      SelfContained names (t.take e.span.stop) ∧ SelfContained names e.text) :
    x ∈ givenBodies names (Edit.spliced t t.length a es) ↔
      (∃ e ∈ es, x ∈ givenBodies names e.text) ∨
        ∃ k ∈ (Page.ofText t).tokens names, a ≤ k.span.start ∧
          (∀ e ∈ es, e.span.contains k.span.start = false) ∧
          x ∈ (Page.ofText t).givenBy k := by
  induction es generalizing a with
  | nil =>
    have htake : SelfContained names (t.take t.length) := by rwa [List.take_length]
    rw [Edit.spliced, mem_givenBodies_slice hb (Nat.le_refl _) hta htake]
    constructor
    · rintro ⟨k, hk, hstart, -, hx⟩
      exact .inr ⟨k, hk, hstart, by simp, hx⟩
    · rintro (⟨e, he, -⟩ | ⟨k, hk, hstart, -, hx⟩)
      · cases he
      · have hspan := Page.span_of_mem_tokens hk
        exact ⟨k, hk, hstart, Nat.lt_of_lt_of_le hspan.1 hspan.2, hx⟩
  | cons e es ih =>
    obtain ⟨hfront, hback, htext⟩ := hes e List.mem_cons_self
    have hle : e.span.start ≤ t.length := Nat.le_trans e.span.ordered hb.2.le
    have hrest := ih hb.2 hback fun f hf => hes f (List.mem_cons_of_mem _ hf)
    have hoff : ∀ {k : Token}, (e.span.contains k.span.start = false ↔
        k.span.start < e.span.start ∨ e.span.stop ≤ k.span.start) := fun {k} => by
      rw [Bool.eq_false_iff, Ne, Span.contains_iff]
      omega
    rw [Edit.spliced, List.append_assoc, givenBodies_append (selfContained_slice hb.1 hta hfront),
      givenBodies_append htext, List.mem_append, List.mem_append, hrest,
      mem_givenBodies_slice hb.1 hle hta hfront]
    constructor
    · rintro (⟨k, hk, hstart, hlt, hx⟩ | hx | ⟨f, hf, hx⟩ | ⟨k, hk, hstart, hno, hx⟩)
      · refine .inr ⟨k, hk, hstart, fun f hf => ?_, hx⟩
        rcases List.mem_cons.mp hf with rfl | hf
        · exact hoff.mpr (.inl hlt)
        · -- what begins in front of this edit begins in front of those behind it
          have hbehind := hb.2.start_le hf
          have hord := e.span.ordered
          rw [Bool.eq_false_iff, Ne, Span.contains_iff]
          omega
      · exact .inl ⟨e, List.mem_cons_self, hx⟩
      · exact .inl ⟨f, List.mem_cons_of_mem _ hf, hx⟩
      · refine .inr ⟨k, hk, Nat.le_trans hb.1 (Nat.le_trans e.span.ordered hstart),
          fun f hf => ?_, hx⟩
        rcases List.mem_cons.mp hf with rfl | hf
        · exact hoff.mpr (.inr hstart)
        · exact hno f hf
    · rintro (⟨f, hf, hx⟩ | ⟨k, hk, hstart, hno, hx⟩)
      · rcases List.mem_cons.mp hf with rfl | hf
        · exact .inr (.inl hx)
        · exact .inr (.inr (.inl ⟨f, hf, hx⟩))
      · rcases hoff.mp (hno e List.mem_cons_self) with hlt | hge
        · exact .inl ⟨k, hk, hstart, hlt, hx⟩
        · exact .inr (.inr (.inr ⟨k, hk, hge,
            fun f hf => hno f (List.mem_cons_of_mem _ hf), hx⟩))

end Texts
end CiteMarkup
