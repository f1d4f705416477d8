import CiteMarkup.Proofs.Chain.Hidden
import CiteMarkup.Proofs.Reference.Accounting
/-!
# What protected text cannot change

An occurrence has an outline: where it stands, how it is written, and whether it stands in an
output list.  Marks are found by what is seen of a page, so two pages that look the same to the
readers have the same marks, and the same outlines of all occurrences that are no names of a
chain, whatever their protected parts say.  How many names a chain has is read from what is
written: it is the same too, if the separators that count in the chains are those that are seen
(`outline_of_veil_eq`).
-/

namespace CiteMarkup

/-! ## 1. Lists of what corresponds -/

section Corresponding

variable {α β γ : Type} {R : α → β → Prop} {l : List α} {l' : List β}

/-- Two lists that correspond to a third correspond to each other. -/
theorem twins_of_alike {l m : List α} {l' : List β} (h : List.Forall₂ R l l')
    (h' : List.Forall₂ R m l') : List.Forall₂ (fun a b => ∃ c, R a c ∧ R b c) l m := by
  induction h generalizing m with
  | nil =>
    cases h'
    exact .nil
  | cons hab hrest ih =>
    cases h' with
    | cons hab' hrest' => exact .cons ⟨_, hab, hab'⟩ (ih hrest')

theorem mem_of_alike (h : List.Forall₂ R l l') :
    List.Forall₂ (fun a b => a ∈ l ∧ b ∈ l' ∧ R a b) l l' := by
  induction h with
  | nil => exact .nil
  | cons hab hrest ih =>
    refine .cons ⟨List.mem_cons_self, List.mem_cons_self, hab⟩ (ih.imp ?_)
    exact fun a b ⟨ha, hb, hab⟩ => ⟨List.mem_cons_of_mem _ ha, List.mem_cons_of_mem _ hb, hab⟩

theorem exists_alike_of_mem {a : α} (h : List.Forall₂ R l l') (ha : a ∈ l) : ∃ b, R a b := by
  induction h with
  | nil => cases ha
  | cons hab hrest ih =>
    rcases List.mem_cons.mp ha with rfl | ha
    · exact ⟨_, hab⟩
    · exact ih ha

theorem any_eq_of_alike {f : α → Bool} {g : β → Bool} (h : List.Forall₂ R l l')
    (hf : ∀ a b, R a b → f a = g b) : l.any f = l'.any g := by
  induction h with
  | nil => rfl
  | cons hab hrest ih => rw [List.any_cons, List.any_cons, hf _ _ hab, ih]

theorem filterMap_eq_of_alike {f : α → Option γ} {g : β → Option γ} (h : List.Forall₂ R l l')
    (hf : ∀ a b, R a b → f a = g b) : l.filterMap f = l'.filterMap g := by
  induction h with
  | nil => rfl
  | cons hab hrest ih => rw [List.filterMap_cons, List.filterMap_cons, hf _ _ hab, ih]

theorem filter_of_alike {f : α → Bool} {g : β → Bool} (h : List.Forall₂ R l l')
    (hf : ∀ a b, R a b → f a = g b) : List.Forall₂ R (l.filter f) (l'.filter g) := by
  induction h with
  | nil => exact .nil
  | @cons a b l l' hab hrest ih =>
    rw [List.filter_cons, List.filter_cons, hf a b hab]
    split
    · exact .cons hab ih
    · exact ih

theorem find?_bind_of_alike {f : α → Bool} {g : β → Bool} {f' : α → Option γ} {g' : β → Option γ}
    (h : List.Forall₂ R l l') (hf : ∀ a b, R a b → f a = g b)
    (hf' : ∀ a b, R a b → f' a = g' b) : (l.find? f).bind f' = (l'.find? g).bind g' := by
  induction h with
  | nil => rfl
  | @cons a b l l' hab hrest ih =>
    rw [List.find?_cons, List.find?_cons, hf a b hab]
    split
    · exact hf' a b hab
    · exact ih

theorem sortByStart_of_alike {f : α → Nat} {g : β → Nat} (h : List.Forall₂ R l l')
    (hf : ∀ a b, R a b → f a = g b) :
    List.Forall₂ R (sortByStart f l) (sortByStart g l') := by
  have insert : ∀ {a : α} {b : β} {l : List α} {l' : List β}, R a b → List.Forall₂ R l l' →
      List.Forall₂ R (insertStable (fun a b => f a ≤ f b) a l)
        (insertStable (fun a b => g a ≤ g b) b l') := by
    intro a b l l' hab h
    induction h with
    | nil => exact .cons hab .nil
    | @cons c d l l' hcd hrest ih =>
      rw [insertStable, insertStable, hf a b hab, hf c d hcd]
      split
      · exact .cons hab (.cons hcd hrest)
      · exact .cons hcd ih
  induction h with
  | nil => exact .nil
  | cons hab hrest ih => exact insert hab ih

end Corresponding

/-! ## 2. Marks -/

/-- The tags stand at the same place and are of the same kind. -/
structure RefTag.Alike (t t' : RefTag) : Prop where
  span : t.span = t'.span
  isFull : t.isFull = t'.isFull

/-- The templates look the same: one template is what is seen of both. -/
def Template.Twin (seen : Text) (t t' : Template) : Prop :=
  ∃ u, t.Alike seen u ∧ t'.Alike seen u

theorem Template.Twin.span_eq {seen : Text} {t t' : Template} (h : t.Twin seen t') :
    t.span = t'.span := by
  obtain ⟨u, h, h'⟩ := h
  exact h.span.trans h'.span.symm

/-- The marks look the same: they are of one kind and stand at the same place. -/
inductive Token.Twin (seen : Text) : Token → Token → Prop
  | tag {t t' : RefTag} (h : t.Alike t') : Token.Twin seen (.tag t) (.tag t')
  | list {t t' : Template} (h : t.Twin seen t') : Token.Twin seen (.list t) (.list t')
  | chain {t t' : Template} (h : t.Twin seen t') : Token.Twin seen (.chain t) (.chain t')
  | locator {t t' : Template} (h : t.Twin seen t') : Token.Twin seen (.locator t) (.locator t')

section Marks

variable {p q : Page} {seen : Text}

/-- Tags are found by what is seen. -/
theorem refTagsBetween_alike (hseen : p.seen = q.seen) (a b : Nat) :
    List.Forall₂ RefTag.Alike (p.refTagsBetween a b) (q.refTagsBetween a b) := by
  have hfull : List.Forall₂ RefTag.Alike
      ((scan (fun _ => fullTagRule) (p.seen.slice a b) a).map p.fullTag)
      ((scan (fun _ => fullTagRule) (q.seen.slice a b) a).map q.fullTag) := by
    rw [hseen, List.forall₂_map_left_iff, List.forall₂_map_right_iff, List.forall₂_same]
    exact fun f _ => ⟨rfl, rfl⟩
  have hempty : List.Forall₂ RefTag.Alike
      ((scan (fun _ => emptyTagRule) (p.seen.slice a b) a).map p.emptyTag)
      ((scan (fun _ => emptyTagRule) (q.seen.slice a b) a).map q.emptyTag) := by
    rw [hseen, List.forall₂_map_left_iff, List.forall₂_map_right_iff, List.forall₂_same]
    exact fun f _ => ⟨rfl, rfl⟩
  refine sortByStart_of_alike (List.rel_append hfull (filter_of_alike hempty ?_)) ?_
  · intro e e' he
    exact congrArg (!·) (any_eq_of_alike hfull fun f f' hf => by rw [hf.span, he.span])
  · exact fun t t' ht => congrArg Span.start ht.span

theorem Token.Twin.span_eq {k k' : Token} (h : k.Twin seen k') : k.span = k'.span := by
  cases h with
  | tag h => exact h.span
  | list h => exact h.span_eq
  | chain h => exact h.span_eq
  | locator h => exact h.span_eq

theorem isOpen_chainName : IsOpen (canonicalName chainName) := by decide

/-- Of two templates that look the same both are chains or neither is. -/
theorem ofTemplate_twin {t t' : Template} (h : t.Twin seen t') :
    (Token.ofTemplate t).Twin seen (Token.ofTemplate t') := by
  obtain ⟨u, hu, hu'⟩ := h
  have hname : t.canonical = canonicalName chainName ↔ t'.canonical = canonicalName chainName :=
    hu.name.reading_iff hu'.name isOpen_chainName canonicalName mem_canonicalName
  unfold Token.ofTemplate
  by_cases hchain : t.canonical = canonicalName chainName
  · rw [if_pos hchain, if_pos (hname.mp hchain)]
    exact .chain ⟨u, hu, hu'⟩
  · rw [if_neg hchain, if_neg fun h' => hchain (hname.mpr h')]
    exact .locator ⟨u, hu, hu'⟩

/-- Pages that look the same have the same invocations. -/
theorem templatesWhere_twin {b c : Bool} (h : Hides b p.raw p.seen) (h' : Hides c q.raw q.seen)
    (hseen : p.seen = q.seen) (wanted : Text → Bool) :
    List.Forall₂ (Template.Twin q.seen) (p.templatesWhere wanted) (q.templatesWhere wanted) := by
  have hp := h.templatesWhere wanted
  rw [hseen] at hp
  exact twins_of_alike hp (h'.templatesWhere wanted)

/-- **Pages that look the same have the same marks.** -/
theorem tokens_twin {b c : Bool} (h : Hides b p.raw p.seen) (h' : Hides c q.raw q.seen)
    (hseen : p.seen = q.seen) (names : List Text) :
    List.Forall₂ (Token.Twin q.seen) (p.tokens names) (q.tokens names) := by
  have hlists := templatesWhere_twin h h' hseen (isNameOf names)
  have hinList : ∀ i, p.inList names i = q.inList names i := fun i =>
    any_eq_of_alike hlists fun t t' ht => by rw [ht.span_eq]
  have htags : List.Forall₂ RefTag.Alike (p.tagMarks names) (q.tagMarks names) := by
    have hlength : p.raw.length = q.raw.length := by rw [← p.aligned, ← q.aligned, hseen]
    unfold Page.tagMarks Page.refTags
    rw [hlength]
    exact filter_of_alike (refTagsBetween_alike hseen 0 q.raw.length) fun t t' ht => by
      rw [hinList, ht.span]
  have hcites : List.Forall₂ (Template.Twin q.seen) (p.citeMarks names) (q.citeMarks names) := by
    refine filter_of_alike (templatesWhere_twin h h' hseen _) fun t t' ht => ?_
    have hbody : ((p.tagMarks names).any fun f => f.isFull && f.span.contains t.span.start) =
        (q.tagMarks names).any fun f => f.isFull && f.span.contains t'.span.start :=
      any_eq_of_alike htags fun f f' hf => by rw [hf.isFull, hf.span, ht.span_eq]
    rw [hinList, hbody, ht.span_eq]
  rw [Page.tokens_eq, Page.tokens_eq]
  refine sortByStart_of_alike ?_ fun k k' hk => congrArg Span.start hk.span_eq
  refine List.rel_append (List.rel_append ?_ ?_) ?_
  · rw [List.forall₂_map_left_iff, List.forall₂_map_right_iff]
    exact hlists.imp fun _ _ => .list
  · rw [List.forall₂_map_left_iff, List.forall₂_map_right_iff]
    exact htags.imp fun _ _ => .tag
  · rw [List.forall₂_map_left_iff, List.forall₂_map_right_iff]
    exact hcites.imp fun _ _ => ofTemplate_twin

end Marks

/-! ## 3. Outlines -/

/-- How an occurrence is written. -/
inductive Occurrence.Kind where
  | full
  | bare
  | chained
  deriving DecidableEq

/-- What an occurrence is, name, group and body aside. -/
structure Occurrence.Outline where
  span : Span
  kind : Occurrence.Kind
  isListed : Bool
  deriving DecidableEq

/-- The kind of an occurrence. -/
def Occurrence.kind (o : Occurrence) : Occurrence.Kind :=
  match o.form with
  | .full _ | .listed _ _ => .full
  | .bare => .bare
  | .chained _ _ => .chained

/-- Where an occurrence of the outline begins. -/
def Occurrence.Outline.start (x : Occurrence.Outline) : Nat := x.span.start

/-- The outline of an occurrence. -/
def Occurrence.outline (o : Occurrence) : Occurrence.Outline := ⟨o.span, o.kind, o.isListed⟩

section Outlines

variable {p q : Page} {seen : Text}

theorem RefTag.outline_occurrence (t : RefTag) :
    t.occurrence.outline = ⟨t.span, if t.isFull then .full else .bare, false⟩ := by
  unfold RefTag.occurrence RefTag.isFull
  cases t.content <;> rfl

theorem isOpen_refs : IsOpen "refs".toList := by decide

/-- The definitions of lists that look the same stand in the same stretch. -/
theorem Template.Twin.definitionSpan?_eq {t t' : Template} (h : t.Twin seen t') :
    t.definitionSpan? = t'.definitionSpan? := by
  obtain ⟨u, hu, hu'⟩ := h
  refine find?_bind_of_alike (List.rel_reverse (twins_of_alike hu.params hu'.params))
    (fun q q' ⟨x, hx, hx'⟩ => hx.hasKey_eq hx' isOpen_refs) fun q q' ⟨x, hx, hx'⟩ => ?_
  rw [hx.value.isEmpty_eq, hx'.value.isEmpty_eq, hx.valueStart, hx'.valueStart, hu.paramsStart,
    hu'.paramsStart, ← hx.value.length_eq, ← hx'.value.length_eq]

/-- The definitions of lists that look the same have the same outlines. -/
theorem Template.Twin.outlines_listedIn {t t' : Template} (h : t.Twin seen t')
    (hseen : p.seen = q.seen) :
    (p.listedIn t).map (·.outline) = (q.listedIn t').map (·.outline) := by
  unfold Page.listedIn
  rw [← h.definitionSpan?_eq]
  cases t.definitionSpan? with
  | none => rfl
  | some s =>
    simp only [List.map_filterMap]
    refine filterMap_eq_of_alike (refTagsBetween_alike hseen s.start s.stop)
      fun tag tag' htag => ?_
    have hfull := htag.isFull
    cases hc : tag.content with
    | none =>
      cases hc' : tag'.content with
      | none => rfl
      | body text start => simp [RefTag.isFull, hc, hc'] at hfull
    | body text start =>
      cases hc' : tag'.content with
      | none => simp [RefTag.isFull, hc, hc'] at hfull
      | body text' start' =>
        simp only [Option.map_some, Occurrence.outline, Occurrence.kind, Occurrence.isListed,
          htag.span]

/-- The number of names in a chain. -/
def Template.nameCount (t : Template) : Nat := (citedNames t.paramText).length

theorem outlines_of_chain (c : Chain) :
    c.occurrences.map (·.outline) =
      List.replicate c.names.length ⟨c.template.span, .chained, false⟩ := by
  refine List.eq_replicate_iff.mpr ⟨by simp [Chain.occurrences], fun x hx => ?_⟩
  obtain ⟨o, ho, rfl⟩ := List.mem_map.mp hx
  obtain ⟨i, e, -, rfl⟩ := Chain.mem_occurrences.mp ho
  rfl

theorem length_names_eq {t t' : Template} (n m : Nat) (h : t.nameCount = t'.nameCount) :
    (⟨n, t, placedEntries t.paramText⟩ : Chain).names.length =
      (⟨m, t', placedEntries t'.paramText⟩ : Chain).names.length := by
  simpa [Template.nameCount, citedNames, Chain.names] using h

/-- The marks look the same, and as chains they have equally many names. -/
structure Token.SameNames (seen : Text) (k k' : Token) : Prop where
  twin : k.Twin seen k'
  names : ∀ t t', k = .chain t → k' = .chain t' → t.nameCount = t'.nameCount

/-- Occurrences other than names of chains have the same outlines in marks that look the
same. -/
theorem outlines_unchained {ks ks' : List Token} (h : List.Forall₂ (Token.Twin seen) ks ks')
    (hseen : p.seen = q.seen) (n m : Nat) :
    ((p.occurrencesAmong n ks).map (·.outline)).filter (·.kind ≠ .chained) =
      ((q.occurrencesAmong m ks').map (·.outline)).filter (·.kind ≠ .chained) := by
  have chained : ∀ c : Chain, (c.occurrences.map (·.outline)).filter (·.kind ≠ .chained) = [] := by
    intro c
    rw [outlines_of_chain, List.filter_eq_nil_iff]
    intro x hx
    rw [List.eq_of_mem_replicate hx]
    exact fun hne => absurd rfl (of_decide_eq_true hne)
  induction h generalizing n m with
  | nil => rfl
  | cons hk hrest ih =>
    cases hk with
    | tag ht =>
      simp only [Page.occurrencesAmong, List.map_cons, RefTag.outline_occurrence, ht.span,
        ht.isFull, List.filter_cons, ih n m]
    | list ht =>
      simp only [Page.occurrencesAmong, List.map_append, List.filter_append,
        ht.outlines_listedIn hseen, ih n m]
    | chain ht =>
      simp only [Page.occurrencesAmong, List.map_append, List.filter_append, chained,
        List.nil_append, ih (n + 1) (m + 1)]
    | locator ht => exact ih n m

/-- All occurrences have the same outlines if the chains have the same number of names. -/
theorem outlines_occurrencesAmong {ks ks' : List Token}
    (h : List.Forall₂ (Token.SameNames seen) ks ks') (hseen : p.seen = q.seen) (n m : Nat) :
    (p.occurrencesAmong n ks).map (·.outline) = (q.occurrencesAmong m ks').map (·.outline) := by
  induction h generalizing n m with
  | nil => rfl
  | cons hk hrest ih =>
    obtain ⟨htwin, hnames⟩ := hk
    cases htwin with
    | tag ht =>
      simp only [Page.occurrencesAmong, List.map_cons, RefTag.outline_occurrence, ht.span,
        ht.isFull, ih n m]
    | list ht =>
      simp only [Page.occurrencesAmong, List.map_append, ht.outlines_listedIn hseen, ih n m]
    | @chain t t' ht =>
      have hcount := length_names_eq n m (hnames t t' rfl rfl)
      simp only [Page.occurrencesAmong, List.map_append, outlines_of_chain, hcount, ht.span_eq,
        ih (n + 1) (m + 1)]
    | locator ht => exact ih n m

/-- The outline of the occurrences that a tag or a chain stands for. -/
def Token.outline? : Token → Option Occurrence.Outline
  | .tag t => some t.occurrence.outline
  | .chain t => some ⟨t.span, .chained, false⟩
  | .list _ | .locator _ => none

/-- An occurrence begins where its tag or its chain does, in no output list, or it stands in
one. -/
theorem anchor_of_mem_survey {names : List Text} {o : Occurrence}
    (ho : o ∈ (p.survey names).occurrences) :
    (∃ k ∈ p.tokens names, k.span.start = o.span.start ∧ p.inList names o.span.start = false ∧
        k.outline? = some o.outline) ∨
      (p.inList names o.span.start = true ∧ o.seat = .listed o.span.start) := by
  rw [Page.survey_eq] at ho
  rcases Page.mem_occurrencesAmong.mp ho with ⟨t, ht, rfl⟩ | ⟨t, ht, hl⟩ | ⟨c, hc, hoc⟩
  · have hout := (List.mem_filter.mp (Page.mem_tokens_tag.mp ht)).2
    rw [Bool.not_eq_true'] at hout
    exact .inl ⟨.tag t, ht, rfl, hout, rfl⟩
  · have hlist := Page.mem_tokens_list.mp ht
    have hb := (Page.isInvocation_of_mem_templates hlist).span_of_mem_listedIn hl
    refine .inr ⟨List.any_eq_true.mpr ⟨t, hlist, Span.contains_iff.mpr (by omega)⟩, ?_⟩
    exact Page.seat_of_mem_listedIn hl
  · obtain ⟨-, hchain, -⟩ := mem_chainsAmong hc
    obtain ⟨i, e, -, rfl⟩ := Chain.mem_occurrences.mp hoc
    have hout := (List.mem_filter.mp (Page.mem_citeMarks_of_chain hchain)).2
    rw [Bool.and_eq_true, Bool.not_eq_true'] at hout
    exact .inl ⟨.chain c.template, hchain, rfl, hout.1, rfl⟩

/-- **Where an occurrence begins tells its outline.** -/
theorem outline_eq_of_start_eq {names : List Text} {o o' : Occurrence}
    (ho : o ∈ (p.survey names).occurrences) (ho' : o' ∈ (p.survey names).occurrences)
    (hstart : o.span.start = o'.span.start) : o.outline = o'.outline := by
  rcases anchor_of_mem_survey ho with ⟨k, hk, hks, hout, houtline⟩ | ⟨hin, hseat⟩ <;>
    rcases anchor_of_mem_survey ho' with ⟨l, hl, hls, hout', houtline'⟩ | ⟨hin', hseat'⟩
  · obtain rfl := Page.eq_of_start_eq hk hl (by rw [hks, hls, hstart])
    exact Option.some.inj (houtline.symm.trans houtline')
  · rw [← hstart, hout] at hin'
    cases hin'
  · rw [← hstart, hin] at hout'
    cases hout'
  · rw [List.inj_on_of_nodup_map (p.nodup_seats_survey names) ho ho'
      (by rw [hseat, hseat', hstart])]

end Outlines

/-! ## 4. Models -/

/-- The outlines of all occurrences of a page, in the order of the page. -/
def Model.outlines (m : Model) : List Occurrence.Outline :=
  sortByStart (·.start) ((m.records.flatMap fun r => r.uses ++ r.listed).map (·.outline))

/-- The models have the same marks, and the same outlines of occurrences that are no names of a
chain. -/
structure Model.SameMarks (m m' : Model) : Prop where
  unchained : m.outlines.filter (·.kind ≠ .chained) = m'.outlines.filter (·.kind ≠ .chained)
  chains : m.chains.map (·.template.span) = m'.chains.map (·.template.span)
  lists : m.lists.map (·.span) = m'.lists.map (·.span)

/-- The models have the same outlines of all occurrences, and as many names in each chain. -/
structure Model.SameOutlines (m m' : Model) : Prop where
  outlines : m.outlines = m'.outlines
  names : (m.chains.map fun c => (c.template.span, c.names.length)) =
    m'.chains.map fun c => (c.template.span, c.names.length)

/-- In each chain of the page the separators that count are those that are seen. -/
def Model.ReadsChainsAsSeen (m : Model) : Prop :=
  ∀ c ∈ m.chains, ReadsAsSeen c.template.paramText
    (m.page.seen.slice c.template.paramsStart (c.template.span.stop - 2))

section Models

variable {t t' : Text} {names : List Text}

/-- The outlines of a model are those of what the survey finds. -/
theorem outlines_perm (t : Text) (names : List Text) :
    (Model.ofText t names).outlines.Perm
      (((Page.ofText t).survey names).occurrences.map (·.outline)) := by
  refine (sortByStart_perm _ _).trans (List.Perm.map _ ?_)
  exact (held_perm t names).trans (Page.survey_perm _ _).symm

/-- Lists of outlines in the order of a page are equal if they have the same elements: no two
of them begin at one place unless they are equal. -/
theorem eq_of_outlines_perm {l l' : List Occurrence.Outline}
    (hl : l.Sublist (Model.ofText t names).outlines)
    (hl' : l'.Sublist (Model.ofText t' names).outlines) (h : l.Perm l') : l = l' := by
  have ordered : ∀ t, (Model.ofText t names).outlines.Pairwise fun x y => x.start ≤ y.start :=
    fun t => pairwise_sortByStart _ _
  refine h.eq_of_pairwise (fun x y hx hy hxy hyx => ?_) ((ordered t).sublist hl)
    ((ordered t').sublist hl')
  have found : ∀ {x}, x ∈ l → ∃ o ∈ ((Page.ofText t).survey names).occurrences, o.outline = x :=
    fun hx => List.mem_map.mp ((outlines_perm t names).mem_iff.mp (hl.subset hx))
  obtain ⟨o, ho, rfl⟩ := found hx
  obtain ⟨o', ho', rfl⟩ := found (h.mem_iff.mpr hy)
  exact outline_eq_of_start_eq ho ho' (Nat.le_antisymm hxy hyx)

/-- Texts that look the same have marks that look the same. -/
theorem tokens_of_veil (h : veil ∉ t) (h' : veil ∉ t') (hveil : t.veil = t'.veil)
    (names : List Text) : List.Forall₂ (Token.Twin t'.veil) ((Page.ofText t).tokens names)
      ((Page.ofText t').tokens names) :=
  tokens_twin (p := Page.ofText t) (q := Page.ofText t') (hides_veil t h) (hides_veil t' h')
    hveil names

theorem chainSpans_of_twin {seen : Text} {ks ks' : List Token}
    (h : List.Forall₂ (Token.Twin seen) ks ks') (n m : Nat) :
    (chainsAmong n ks).map (·.template.span) = (chainsAmong m ks').map (·.template.span) := by
  induction h generalizing n m with
  | nil => rfl
  | cons hk hrest ih =>
    cases hk with
    | tag ht => exact ih n m
    | list ht => exact ih n m
    | chain ht => simp only [chainsAmong, List.map_cons, ht.span_eq, ih (n + 1) (m + 1)]
    | locator ht => exact ih n m

theorem listSpans_of_twin {seen : Text} {ks ks' : List Token}
    (h : List.Forall₂ (Token.Twin seen) ks ks') :
    (listsAmong ks).map (·.span) = (listsAmong ks').map (·.span) := by
  induction h with
  | nil => rfl
  | cons hk hrest ih =>
    cases hk with
    | tag ht => exact ih
    | list ht => simp only [listsAmong, List.map_cons, ht.span_eq, ih]
    | chain ht => exact ih
    | locator ht => exact ih

theorem chainNames_of_twin {seen : Text} {ks ks' : List Token}
    (h : List.Forall₂ (Token.SameNames seen) ks ks') (n m : Nat) :
    ((chainsAmong n ks).map fun c => (c.template.span, c.names.length)) =
      (chainsAmong m ks').map fun c => (c.template.span, c.names.length) := by
  induction h generalizing n m with
  | nil => rfl
  | cons hk hrest ih =>
    obtain ⟨htwin, hnames⟩ := hk
    cases htwin with
    | tag ht => exact ih n m
    | list ht => exact ih n m
    | @chain t t' ht =>
      have hcount := length_names_eq n m (hnames t t' rfl rfl)
      simp only [chainsAmong, List.map_cons, ht.span_eq, hcount, ih (n + 1) (m + 1)]
    | locator ht => exact ih n m

theorem reads_of_mem_tokens (hreads : (Model.ofText t names).ReadsChainsAsSeen) {s : Template}
    (hs : .chain s ∈ (Page.ofText t).tokens names) :
    ReadsAsSeen s.paramText (t.veil.slice s.paramsStart (s.span.stop - 2)) := by
  obtain ⟨c, hc, rfl⟩ := exists_chain_of_mem hs 0
  refine hreads c ?_
  rw [(accounts_ofText t names).chains_eq, Page.survey_eq]
  exact hc

/-- A chain that is read as it is seen has as many names as are seen. -/
theorem nameCount_of_reads {seen : Text} {s u : Template} (h : s.Alike seen u)
    (hreads : ReadsAsSeen s.paramText (seen.slice s.paramsStart (s.span.stop - 2))) :
    s.nameCount = u.nameCount := by
  have hentries := h.paramText.placedEntries (h.seen_eq ▸ hreads)
  have hnames := filter_of_alike hentries
    (f := fun e => e.toEntry.isName) (g := fun e => e.toEntry.isName)
    fun e e' he => by rw [Entry.isName, Entry.isName, he.role]
  simpa [Template.nameCount, citedNames] using hnames.length_eq

/-- Marks that look the same have the same names, if the chains among them are read as seen. -/
theorem sameNames_of_reads (h : veil ∉ t) (h' : veil ∉ t') (hveil : t.veil = t'.veil)
    (hreads : (Model.ofText t names).ReadsChainsAsSeen)
    (hreads' : (Model.ofText t' names).ReadsChainsAsSeen) :
    List.Forall₂ (Token.SameNames t'.veil) ((Page.ofText t).tokens names)
      ((Page.ofText t').tokens names) := by
  refine (mem_of_alike (tokens_of_veil h h' hveil names)).imp fun k k' hk => ⟨hk.2.2, ?_⟩
  rintro s s' rfl rfl
  obtain ⟨hs, hs', htwin⟩ := hk
  cases htwin with
  | chain htwin =>
    obtain ⟨u, hu, hu'⟩ := htwin
    have hsee := reads_of_mem_tokens hreads hs
    rw [hveil] at hsee
    exact (nameCount_of_reads hu hsee).trans
      (nameCount_of_reads hu' (reads_of_mem_tokens hreads' hs')).symm

/-- A chain in which no separator is hidden is read as it is seen. -/
theorem readsChainsAsSeen_of_inert (h : veil ∉ t)
    (hinert : ∀ c ∈ (Model.ofText t names).chains, List.Forall₂ SameSeparator
      c.template.paramText (t.veil.slice c.template.paramsStart (c.template.span.stop - 2))) :
    (Model.ofText t names).ReadsChainsAsSeen := by
  intro c hc
  have hchain := ((accounts_ofText t names).mem_chains hc).1
  obtain ⟨k', hk'⟩ := exists_alike_of_mem (tokens_of_veil h h rfl names) hchain
  cases hk' with
  | chain htwin =>
    obtain ⟨u, hu, -⟩ := htwin
    refine readsAsSeen_of_inert (hinert c hc) ?_
    have hhides := hu.paramText
    rw [hu.seen_eq] at hhides
    exact hhides

instance (m : Model) : Decidable m.ReadsChainsAsSeen :=
  inferInstanceAs (Decidable (∀ c ∈ m.chains, _))

/-- **Protected text has no say in the structure of a page**, except in chains that it separates.
Two texts that look the same to the readers have the same marks at the same places and the same
outlines of all occurrences other than names of chains.  If in the chains of both the separators
that count are those that are seen, they have the same outlines of all occurrences, and as many
names in each chain. -/
theorem outline_of_veil_eq (t t' : Text) (names : List Text) (h : veil ∉ t) (h' : veil ∉ t')
    (hveil : t.veil = t'.veil) :
    (Model.ofText t names).SameMarks (Model.ofText t' names) ∧
      ((Model.ofText t names).ReadsChainsAsSeen → (Model.ofText t' names).ReadsChainsAsSeen →
        (Model.ofText t names).SameOutlines (Model.ofText t' names)) := by
  have hchains : ∀ t, (Model.ofText t names).chains =
      chainsAmong 0 ((Page.ofText t).tokens names) := fun t => by
    rw [(accounts_ofText t names).chains_eq, Page.survey_eq]
  have hlists : ∀ t, (Model.ofText t names).lists =
      listsAmong ((Page.ofText t).tokens names) := fun t => by
    rw [(accounts_ofText t names).lists_eq, Page.survey_eq]
  have htwins := tokens_of_veil h h' hveil names
  constructor
  · constructor
    · refine eq_of_outlines_perm List.filter_sublist List.filter_sublist ?_
      refine ((outlines_perm t names).filter _).trans
        (List.Perm.trans ?_ ((outlines_perm t' names).filter _).symm)
      rw [Page.survey_eq, Page.survey_eq]
      exact List.Perm.of_eq (outlines_unchained htwins hveil 0 0)
    · rw [hchains, hchains, chainSpans_of_twin htwins 0 0]
    · rw [hlists, hlists, listSpans_of_twin htwins]
  · intro hreads hreads'
    have hsame := sameNames_of_reads h h' hveil hreads hreads'
    constructor
    · refine eq_of_outlines_perm (List.Sublist.refl _) (List.Sublist.refl _) ?_
      refine (outlines_perm t names).trans (List.Perm.trans ?_ (outlines_perm t' names).symm)
      rw [Page.survey_eq, Page.survey_eq]
      exact List.Perm.of_eq (outlines_occurrencesAmong hsame hveil 0 0)
    · rw [hchains, hchains, chainNames_of_twin hsame 0 0]

/-- What a comment in a chain says does not matter as long as it holds no separator. -/
theorem outline_of_comments :
    let t := "\x7b\x7br|a<!--x-->|b\x7d\x7d<ref name=\"c\">u<nowiki>|</nowiki></ref>".toList
    let t' := "\x7b\x7br|a<!--y-->|b\x7d\x7d<ref name=\"c\">u<nowiki>=</nowiki></ref>".toList
    t ≠ t' ∧ (Model.ofText t defaultListNames).SameOutlines (Model.ofText t' defaultListNames) :=
  ⟨by decide, (outline_of_veil_eq _ _ defaultListNames (by decide) (by decide)
    (by decide +kernel)).2 (by decide +kernel) (by decide +kernel)⟩

/-- A bar in a comment: the two texts look the same, but the one chain has two names and the
other has one. -/
theorem names_told_by_comment :
    let t := "\x7b\x7br|a<!--|-->b\x7d\x7d".toList
    let t' := "\x7b\x7br|a<!--x-->b\x7d\x7d".toList
    veil ∉ t ∧ veil ∉ t' ∧ Text.veil t = Text.veil t' ∧
      (Model.ofText t defaultListNames).outlines ≠ (Model.ofText t' defaultListNames).outlines ∧
      (Model.ofText t defaultListNames).chains.map (·.names.length) = [2] ∧
      (Model.ofText t' defaultListNames).chains.map (·.names.length) = [1] := by
  decide +kernel

end Models
end CiteMarkup
