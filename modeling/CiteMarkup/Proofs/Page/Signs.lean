import CiteMarkup.Proofs.Order.Firsts
import CiteMarkup.Proofs.Page.Pieces
import CiteMarkup.Proofs.Reference.Given
import CiteMarkup.Proofs.Reference.Uses
/-!
# Marks away from their places

A mark has a sign: its reading, its text and the occurrences in it with their texts, all without
the place where it stands.  The signs of texts that are read by themselves, one behind the other,
are those of each text (`signs_append`).  So if a page can be cut around its marks, the signs of
the edited page are those of what the edits leave at each mark, in the order of the page
(`signs_spliced`).
-/

namespace CiteMarkup

/-! ## 1. Without a place -/

/-- The occurrence without its place. -/
def Occurrence.told (o : Occurrence) : Occurrence :=
  { o with
    span := Span.empty 0
    form := match o.form with
      | .chained _ _ => .chained 0 0
      | f => f }

section Told

variable (o : Occurrence)

@[simp] theorem Occurrence.name_told : o.told.name = o.name := rfl

@[simp] theorem Occurrence.group_told : o.told.group = o.group := rfl

@[simp] theorem Occurrence.body?_told : o.told.body? = o.body? := by
  obtain ⟨_, form, _, _⟩ := o
  cases form <;> rfl

@[simp] theorem Occurrence.visibleBody?_told : o.told.visibleBody? = o.visibleBody? := by
  rw [visibleBody?, body?_told, visibleBody?]

@[simp] theorem Occurrence.isListed_told : o.told.isListed = o.isListed := by
  obtain ⟨_, form, _, _⟩ := o
  cases form <;> rfl

@[simp] theorem Occurrence.isChained_told : o.told.isChained = o.isChained := by
  obtain ⟨_, form, _, _⟩ := o
  cases form <;> rfl

end Told

/-- The stretch of the same length at the beginning. -/
def Span.home (s : Span) : Span := Span.ofLength 0 (s.stop - s.start)

/-- The tag as it reads at the beginning of a text. -/
def RefTag.home (t : RefTag) : RefTag :=
  { t with
    span := t.span.home
    content := match t.content with
      | .none => .none
      | .body text start => .body text (start - t.span.start) }

/-- The invocation as it reads at the beginning of a text. -/
def Template.home (t : Template) : Template :=
  { t with span := t.span.home, paramsStart := t.paramsStart - t.span.start }

/-- The mark as it reads at the beginning of a text. -/
def Token.home : Token → Token
  | .tag t => .tag t.home
  | .chain t => .chain t.home
  | .locator t => .locator t.home
  | .list t => .list t.home

@[simp] theorem Span.home_shift (n : Nat) (s : Span) : (s.shift n).home = s.home := by
  rw [home, home, start_shift, stop_shift, Nat.add_sub_add_left]

@[simp] theorem RefTag.home_shift (n : Nat) (t : RefTag) : (t.shift n).home = t.home := by
  obtain ⟨span, attributes, content⟩ := t
  cases content with
  | none => simp [home, shift]
  | body b start => simp [home, shift, Nat.add_sub_add_left]

@[simp] theorem Template.home_shift (n : Nat) (t : Template) : (t.shift n).home = t.home := by
  simp [home, shift, Nat.add_sub_add_left]

@[simp] theorem Token.home_shift (n : Nat) (k : Token) : (k.shift n).home = k.home := by
  cases k <;> simp [home, shift]

/-! ## 2. Signs -/

/-- The definition that a tag in a list makes, without its place. -/
def RefTag.definedIn? (group : Option Text) (t : RefTag) : Option Occurrence :=
  match t.content with
  | .none => none
  | .body b _ => some ⟨Span.empty 0, .listed b t.group?.isSome, t.name?, t.group? <|> group⟩

/-- An occurrence without its place, and how it is written. -/
abbrev Told := Occurrence × Text

/-- An occurrence on the page without its place, with its text. -/
def Page.tell (p : Page) (o : Occurrence) : Told := (o.told, p.raw.cut o.span)

/-- What a tag with the text `w` tells in a list of the group. -/
def RefTag.toldIn? (group : Option Text) (w : Text) (t : RefTag) : Option Told :=
  (t.definedIn? group).map (·, w)

/-- What a mark tells: the occurrences in it. -/
def Page.tells (p : Page) : Token → List Told
  | .list t => (p.definitionsIn? t).elim [] (·.readIn (RefTag.toldIn? (t.value? "group".toList)))
  | .tag t => [p.tell t.occurrence]
  | .chain t => (⟨0, t, placedEntries t.paramText⟩ : Chain).occurrences.map p.tell
  | .locator _ => []

/-- A mark without its place. -/
structure Sign where
  mark : Token
  text : Text
  said : List Told

/-- The sign of a mark. -/
def Page.sign (p : Page) (k : Token) : Sign := ⟨k.home, p.raw.cut k.span, p.tells k⟩

/-- The signs of the marks of a text. -/
def signs (names : List Text) (t : Text) : List Sign :=
  ((Page.ofText t).tokens names).map (Page.ofText t).sign

@[simp] theorem RefTag.definedIn?_shift (n : Nat) (group : Option Text) (t : RefTag) :
    (t.shift n).definedIn? group = t.definedIn? group := by
  obtain ⟨span, attributes, content⟩ := t
  cases content <;> rfl

@[simp] theorem RefTag.toldIn?_shift (n : Nat) (group : Option Text) (w : Text) (t : RefTag) :
    (t.shift n).toldIn? group w = t.toldIn? group w := by
  rw [toldIn?, definedIn?_shift, toldIn?]

@[simp] theorem RefTag.told_shift (n : Nat) (t : RefTag) :
    (t.shift n).occurrence.told = t.occurrence.told := by
  obtain ⟨span, attributes, content⟩ := t
  cases content <;> rfl

/-- The number of a chain on the page and its place do not matter. -/
theorem Chain.told_occurrences (p : Page) (c : Chain) : c.occurrences.map p.tell =
    (citedBy c.plainEntries).map fun x =>
      (⟨Span.empty 0, .chained 0 0, x.1, x.2⟩, p.raw.cut c.template.span) := by
  rw [← c.map_cited_occurrences, List.map_map]
  refine List.map_congr_left fun o ho => ?_
  obtain ⟨i, e, -, rfl⟩ := Chain.mem_occurrences.mp ho
  rfl

namespace Page

variable {p q : Page} {names : List Text} {k : Token}

/-- The tags with content between two offsets are those of the part between them. -/
theorem filter_isFull_refTagsBetween (p : Page) (s : Span) :
    (p.refTagsBetween s.start s.stop).filter (·.isFull) =
      (p.slice s.start s.stop).fullTags.map (RefTag.shift s.start) := by
  have total : ∀ a b : RefTag, decide (a.span.start ≤ b.span.start) = true ∨
      decide (b.span.start ≤ a.span.start) = true := fun a b => by
    simpa using Nat.le_total a.span.start b.span.start
  have trans : ∀ a b c : RefTag, decide (a.span.start ≤ b.span.start) = true →
      decide (b.span.start ≤ c.span.start) = true →
      decide (a.span.start ≤ c.span.start) = true := fun a b c hab hbc => by
    simp only [decide_eq_true_eq] at *
    exact Nat.le_trans hab hbc
  have hkeep : (p.fullTagsBetween s.start s.stop).filter (·.isFull) =
      p.fullTagsBetween s.start s.stop :=
    List.filter_eq_self.mpr fun t ht => isFull_of_mem_fullTagsBetween ht
  have hdrop : (p.emptyTagsBetween s.start s.stop).filter (·.isFull) = [] :=
    List.filter_eq_nil_iff.mpr fun t ht => by
      simp [not_isFull_of_mem_emptyTagsBetween ht]
  have hsorted : (p.fullTagsBetween s.start s.stop).Pairwise fun a b =>
      decide (a.span.start ≤ b.span.start) = true :=
    (pairwise_fullTagsBetween p s.start s.stop).imp fun {a b} hab => by
      have := a.span.ordered
      simp only [decide_eq_true_eq]
      omega
  rw [refTagsBetween_eq, sortByStart, filter_sortStable total trans, List.filter_append,
    hkeep, hdrop, List.append_nil, sortStable_of_pairwise hsorted, fullTagsBetween_eq]

/-- What a list tells is what stands in it. -/
theorem told_listedIn (p : Page) (t : Template) :
    (p.listedIn t).map p.tell = p.tells (.list t) := by
  rw [listedIn, tells, definitionsIn?]
  cases t.definitionSpan? with
  | none => rfl
  | some s =>
    simp only [Option.map_some, Option.elim_some]
    have hone : ∀ tag : RefTag, Option.map p.tell (match tag.content with
        | .none => none
        | .body text _ => some (⟨tag.span, .listed text tag.group?.isSome, tag.name?,
            tag.group? <|> t.value? "group".toList⟩ : Occurrence)) =
        if tag.isFull then tag.toldIn? (t.value? "group".toList) (p.raw.cut tag.span)
          else none := by
      intro tag
      cases hc : tag.content with
      | none => simp [RefTag.isFull, hc]
      | body b i =>
        simp only [RefTag.isFull, RefTag.toldIn?, RefTag.definedIn?, hc]
        rfl
    have hfilter : ∀ l : List RefTag, l.filterMap (fun tag =>
        if tag.isFull then tag.toldIn? (t.value? "group".toList) (p.raw.cut tag.span) else none) =
          (l.filter (·.isFull)).filterMap fun tag =>
            tag.toldIn? (t.value? "group".toList) (p.raw.cut tag.span) := fun l => by
      rw [List.filterMap_filter]
    rw [List.map_filterMap]
    refine (List.filterMap_congr fun tag _ => hone tag).trans ?_
    rw [hfilter, filter_isFull_refTagsBetween, List.filterMap_map, readIn]
    refine List.filterMap_congr fun tag htag => ?_
    have hstop : tag.span.stop ≤ s.stop - s.start := by
      have hle := stop_le_of_mem_fullTags htag
      have hlength : (p.slice s.start s.stop).raw.length ≤ s.stop - s.start := by
        change (p.raw.slice s.start s.stop).length ≤ _
        rw [Text.length_slice]
        omega
      omega
    have hcut : p.raw.cut (tag.shift s.start).span =
        (p.slice s.start s.stop).raw.cut tag.span :=
      (Text.slice_slice p.raw (by have := s.ordered; omega)).symm
    rw [Function.comp_apply, hcut, RefTag.toldIn?_shift]

/-- The signs of a page say what occurs on it. -/
theorem told_occurrences (p : Page) (names : List Text) :
    (p.survey names).occurrences.map p.tell = (p.tokens names).flatMap p.tells := by
  have among : ∀ (ks : List Token) (n : Nat),
      (p.occurrencesAmong n ks).map p.tell = ks.flatMap p.tells := by
    intro ks
    induction ks with
    | nil => exact fun _ => rfl
    | cons k ks ih =>
      intro n
      cases k with
      | tag t => rw [occurrencesAmong, List.map_cons, ih, List.flatMap_cons]; rfl
      | locator t => rw [occurrencesAmong, ih, List.flatMap_cons]; rfl
      | list t => rw [occurrencesAmong, List.map_append, ih, List.flatMap_cons, told_listedIn]
      | chain t =>
        rw [occurrencesAmong, List.map_append, ih, List.flatMap_cons, Chain.told_occurrences,
          tells, Chain.told_occurrences]
        rfl
  rw [survey_eq]
  exact among _ 0

theorem sign_append_right (p q : Page) (k : Token) :
    (p.append q).sign (k.shift p.raw.length) = q.sign k := by
  have hcut : (p.append q).raw.cut (k.shift p.raw.length).span = q.raw.cut k.span := by
    rw [Token.span_shift]
    exact Text.slice_append_right p.raw q.raw k.span.start k.span.stop
  have htells : (p.append q).tells (k.shift p.raw.length) = q.tells k := by
    cases k with
    | tag t =>
      rw [Token.shift, tells, tells, tell, tell, RefTag.told_shift]
      exact congrArg (fun w => [(t.occurrence.told, w)]) hcut
    | chain t =>
      rw [Token.shift, tells, tells, Chain.told_occurrences, Chain.told_occurrences]
      exact List.map_congr_left fun _ _ => congrArg (Prod.mk _) hcut
    | locator t => rfl
    | list t =>
      rw [Token.shift, tells, tells, definitionsIn?_append_right]
      rfl
  rw [sign, sign, Token.home_shift, hcut, htells]

theorem sign_append_left (hk : k ∈ p.tokens names) (q : Page) :
    (p.append q).sign k = p.sign k := by
  have hcut : (p.append q).raw.cut k.span = p.raw.cut k.span :=
    Text.slice_append_left p.raw q.raw (span_of_mem_tokens hk).2
  have htells : (p.append q).tells k = p.tells k := by
    cases k with
    | tag t => exact congrArg (fun w => [(t.occurrence.told, w)]) hcut
    | chain t =>
      rw [tells, tells, Chain.told_occurrences, Chain.told_occurrences]
      exact List.map_congr_left fun _ _ => congrArg (Prod.mk _) hcut
    | locator t => rfl
    | list t => rw [tells, tells, definitionsIn?_append_left hk]
  rw [sign, sign, hcut, htells]

end Page

/-! ## 3. Texts -/

section Texts

variable {names : List Text} {t u : Text} {a : Nat} {k : Token} {es : List Edit}

/-- **A text that is read by itself has its signs, whatever stands behind it.** -/
theorem signs_append (hu : SelfContained names u) (v : Text) :
    signs names (u ++ v) = signs names u ++ signs names v := by
  rw [signs, hu.tokens_append, hu.ofText_append, List.map_append, List.map_map]
  congr 1
  · exact List.map_congr_left fun k hk => Page.sign_append_left hk _
  · exact List.map_congr_left fun k _ => Page.sign_append_right (Page.ofText u) _ k

theorem signs_flatten : ∀ {texts : List Text}, (∀ w ∈ texts, SelfContained names w) →
    SelfContained names texts.flatten ∧ signs names texts.flatten = texts.flatMap (signs names)
  | [], _ => ⟨.nil, rfl⟩
  | w :: texts, h => by
    obtain ⟨hself, hsigns⟩ := signs_flatten fun v hv => h v (List.mem_cons_of_mem _ hv)
    have hw := h w List.mem_cons_self
    rw [List.flatten_cons, List.flatMap_cons, signs_append hw, hsigns]
    exact ⟨hw.append hself, rfl⟩

/-- The text of a mark has the sign of the mark and no other. -/
theorem signs_cut (hk : k ∈ (Page.ofText t).tokens names)
    (hfront : SelfContained names (t.take k.span.start))
    (hback : SelfContained names (t.take k.span.stop))
    (halone : ∀ l ∈ (Page.ofText t).tokens names, k.span.start ≤ l.span.start →
      l.span.start < k.span.stop → l = k) :
    SelfContained names (t.cut k.span) ∧ signs names (t.cut k.span) = [(Page.ofText t).sign k] := by
  obtain ⟨hlt, hle⟩ := Page.span_of_mem_tokens hk
  have hle : k.span.stop ≤ t.length := hle
  have hlength : (t.take k.span.start).length = k.span.start :=
    List.length_take_of_le (Nat.le_trans k.span.ordered hle)
  have hself : SelfContained names (t.cut k.span) :=
    selfContained_slice k.span.ordered hfront hback
  have hpage : Page.ofText t = (Page.ofText (t.take k.span.start)).append
      ((Page.ofText (t.cut k.span)).append (Page.ofText (t.drop k.span.stop))) := by
    rw [← hself.ofText_append, ← hfront.ofText_append]
    change _ = Page.ofText (_ ++ (t.slice _ _ ++ _))
    rw [slice_append_drop k.span.ordered hle, List.take_append_drop]
  have htokens : ((Page.ofText (t.cut k.span)).tokens names).map (Token.shift k.span.start) =
      [k] := by
    refine Page.eq_of_mem_iff ?_ (List.pairwise_singleton _ _) fun l => ?_
    · refine List.pairwise_map.mpr ((Page.pairwise_lt_tokens _ names).imp fun {x y} hxy => ?_)
      rw [Token.span_shift, Token.span_shift, Span.start_shift, Span.start_shift]
      omega
    · rw [Text.cut, mem_tokens_slice k.span.ordered hle hfront hback, List.mem_singleton]
      constructor
      · rintro ⟨hl, hstart, hstop⟩
        exact halone l hl hstart hstop
      · rintro rfl
        exact ⟨hk, Nat.le_refl _, hlt⟩
  obtain ⟨l, hl, hshift⟩ := List.map_eq_singleton_iff.mp htokens
  refine ⟨hself, ?_⟩
  have hsign : (Page.ofText t).sign k = (Page.ofText (t.cut k.span)).sign l := by
    have hmem : l ∈ (Page.ofText (t.cut k.span)).tokens names := hl ▸ List.mem_singleton_self l
    have hright := Page.sign_append_right (Page.ofText (t.take k.span.start))
      ((Page.ofText (t.cut k.span)).append (Page.ofText (t.drop k.span.stop))) l
    have hraw : (Page.ofText (t.take k.span.start)).raw.length = k.span.start := hlength
    rw [← hpage, hraw, Page.sign_append_left hmem, hshift] at hright
    exact hright
  rw [signs, hl, List.map_singleton, hsign]

/-- The signs of the page from `a` on, with other texts in the place of marks. -/
theorem signs_pieces {left : Span → Text} {added : Text} {ks : List Token}
    (hm : AreMarksFrom names t a ks) (hleft : ∀ k ∈ ks, SelfContained names (left k.span)) :
    signs names (pieces t left added a ks) =
      ks.flatMap (fun k => signs names (left k.span)) ++ signs names added := by
  induction ks generalizing a with
  | nil =>
    obtain ⟨hgap, hnone⟩ := hm.gap_nil
    rw [pieces, signs_append hgap, signs, hnone]
    rfl
  | cons k ks ih =>
    obtain ⟨hgap, hnone⟩ := hm.gap_cons
    rw [pieces, signs_append hgap, signs_append (hleft k List.mem_cons_self),
      ih hm.tail fun l hl => hleft l (List.mem_cons_of_mem _ hl), List.flatMap_cons,
      List.append_assoc]
    rw [signs, hnone]
    rfl

/-- **The signs of an edited page** are those of what is left at each mark, and behind them those
of what is added at the end. -/
theorem signs_spliced (hpage : SelfContained names t) (hb : Edit.Between 0 t.length es)
    (hcuts : ∀ k ∈ (Page.ofText t).tokens names, SelfContained names (t.take k.span.start) ∧
      SelfContained names (t.take k.span.stop))
    (hwithin : ∀ e ∈ es, e.StaysWithin t ((Page.ofText t).tokens names))
    (hleft : ∀ k ∈ (Page.ofText t).tokens names, SelfContained names (leftAt t es k.span))
    (hadded : ∀ w ∈ addedAtEnd t es, SelfContained names w) :
    signs names (Edit.spliced t t.length 0 es) =
      ((Page.ofText t).tokens names).flatMap (fun k => signs names (leftAt t es k.span)) ++
        (addedAtEnd t es).flatMap (signs names) := by
  have hm := areMarksFrom_tokens hpage hcuts
  rw [spliced_eq_pieces hm hb hwithin, signs_pieces hm hleft, (signs_flatten hadded).2]

end Texts
end CiteMarkup
