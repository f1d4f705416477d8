import CiteMarkup.Proofs.Chain.Places
import CiteMarkup.Proofs.Page.Marks
import CiteMarkup.Reference.Model
/-!
# What the survey of a page holds

The survey goes over the marks of a page once.  It is put here as three lists that recurse on
the marks (`foldl_note`): the output lists, the chains with their numbers, and the occurrences.
Each occurrence has a seat of its own -- the place of a tag, the place of a definition, or the
number of a name in a chain -- and no two occurrences share one (`nodup_seats_survey`).
-/

namespace CiteMarkup

/-! ## 1. The survey as recursions on the marks -/

/-- The occurrence that a tag in the running text is. -/
def RefTag.occurrence (t : RefTag) : Occurrence :=
  ⟨t.span, match t.content with | .none => .bare | .body b _ => .full b, t.name?, t.group?⟩

/-- The output lists among marks. -/
def listsAmong : List Token → List Template
  | [] => []
  | .list t :: ks => t :: listsAmong ks
  | _ :: ks => listsAmong ks

/-- The chains among marks, numbered from `n` on. -/
def chainsAmong : (n : Nat) → List Token → List Chain
  | _, [] => []
  | n, .chain t :: ks => ⟨n, t, placedEntries t.paramText⟩ :: chainsAmong (n + 1) ks
  | n, _ :: ks => chainsAmong n ks

/-- The occurrences among marks, the chains numbered from `n` on. -/
def Page.occurrencesAmong (p : Page) : (n : Nat) → List Token → List Occurrence
  | _, [] => []
  | n, .list t :: ks => p.listedIn t ++ p.occurrencesAmong n ks
  | n, .tag t :: ks => t.occurrence :: p.occurrencesAmong n ks
  | n, .locator _ :: ks => p.occurrencesAmong n ks
  | n, .chain t :: ks =>
    (⟨n, t, placedEntries t.paramText⟩ : Chain).occurrences ++ p.occurrencesAmong (n + 1) ks

namespace Page

variable {p : Page} {names : List Text}

/-- A survey that goes on from `s` adds what the marks hold. -/
theorem foldl_note (p : Page) : ∀ (ks : List Token) (s : Survey),
    ks.foldl p.note s = ⟨s.lists ++ listsAmong ks, s.chains ++ chainsAmong s.chains.length ks,
      s.occurrences ++ p.occurrencesAmong s.chains.length ks⟩
  | [], s => by simp [listsAmong, chainsAmong, occurrencesAmong]
  | .list t :: ks, s => by
    rw [List.foldl_cons, foldl_note p ks]
    simp [note, listsAmong, chainsAmong, occurrencesAmong]
  | .tag t :: ks, s => by
    rw [List.foldl_cons, foldl_note p ks]
    cases hc : t.content <;>
      simp [note, listsAmong, chainsAmong, occurrencesAmong, RefTag.occurrence, hc]
  | .locator t :: ks, s => by
    rw [List.foldl_cons, foldl_note p ks]
    simp [note, listsAmong, chainsAmong, occurrencesAmong]
  | .chain t :: ks, s => by
    rw [List.foldl_cons, foldl_note p ks]
    simp [note, listsAmong, chainsAmong, occurrencesAmong]

theorem survey_eq (p : Page) (names : List Text) :
    p.survey names = ⟨listsAmong (p.tokens names), chainsAmong 0 (p.tokens names),
      p.occurrencesAmong 0 (p.tokens names)⟩ := by
  rw [survey, foldl_note]
  rfl

end Page

/-! ## 2. Lists and chains -/

theorem mem_listsAmong {t : Template} : ∀ {l : List Token},
    t ∈ listsAmong l ↔ .list t ∈ l
  | [] => by simp [listsAmong]
  | .list s :: ks => by simp [listsAmong, mem_listsAmong (l := ks)]
  | .tag s :: ks => by simp [listsAmong, mem_listsAmong (l := ks)]
  | .chain s :: ks => by simp [listsAmong, mem_listsAmong (l := ks)]
  | .locator s :: ks => by simp [listsAmong, mem_listsAmong (l := ks)]

/-- A chain has its number, stands for a mark, and has the entries of its parameter text. -/
theorem mem_chainsAmong {c : Chain} : ∀ {l : List Token} {n : Nat}, c ∈ chainsAmong n l →
    n ≤ c.id ∧ .chain c.template ∈ l ∧ c.entries = placedEntries c.template.paramText
  | [], n, h => by simp [chainsAmong] at h
  | .list s :: ks, n, h => by
    obtain ⟨h1, h2, h3⟩ := mem_chainsAmong (l := ks) h
    exact ⟨h1, List.mem_cons_of_mem _ h2, h3⟩
  | .tag s :: ks, n, h => by
    obtain ⟨h1, h2, h3⟩ := mem_chainsAmong (l := ks) h
    exact ⟨h1, List.mem_cons_of_mem _ h2, h3⟩
  | .locator s :: ks, n, h => by
    obtain ⟨h1, h2, h3⟩ := mem_chainsAmong (l := ks) h
    exact ⟨h1, List.mem_cons_of_mem _ h2, h3⟩
  | .chain s :: ks, n, h => by
    rw [chainsAmong] at h
    rcases List.mem_cons.mp h with rfl | h
    · exact ⟨Nat.le_refl _, List.mem_cons_self, rfl⟩
    · obtain ⟨h1, h2, h3⟩ := mem_chainsAmong h
      exact ⟨by omega, List.mem_cons_of_mem _ h2, h3⟩

/-- A mark that is a chain has its number. -/
theorem exists_chain_of_mem {s : Template} {ks : List Token} (h : .chain s ∈ ks) (n : Nat) :
    ∃ c ∈ chainsAmong n ks, c.template = s := by
  induction ks generalizing n with
  | nil => cases h
  | cons k ks ih =>
    have later : ∀ {m : Nat}, .chain s ∈ ks →
        (∀ c ∈ chainsAmong m ks, c ∈ chainsAmong n (k :: ks)) →
        ∃ c ∈ chainsAmong n (k :: ks), c.template = s := by
      intro m hmem hsub
      obtain ⟨c, hc, hs⟩ := ih hmem m
      exact ⟨c, hsub c hc, hs⟩
    cases k with
    | tag u => exact later ((List.mem_cons.mp h).resolve_left (by simp)) fun c hc => hc
    | list u => exact later ((List.mem_cons.mp h).resolve_left (by simp)) fun c hc => hc
    | locator u => exact later ((List.mem_cons.mp h).resolve_left (by simp)) fun c hc => hc
    | chain u =>
      rcases List.mem_cons.mp h with heq | h
      · exact ⟨_, List.mem_cons_self, (Token.chain.inj heq).symm⟩
      · exact later h fun c hc => List.mem_cons_of_mem _ hc

/-- Chains stand in the order of their numbers and of the page. -/
theorem pairwise_chainsAmong : ∀ {l : List Token} {n : Nat},
    (l.Pairwise fun j k => j.span.start < k.span.start) →
    (chainsAmong n l).Pairwise fun c d =>
      c.id < d.id ∧ c.template.span.start < d.template.span.start
  | [], n, _ => by simp [chainsAmong]
  | .list s :: ks, n, h => pairwise_chainsAmong (l := ks) h.of_cons
  | .tag s :: ks, n, h => pairwise_chainsAmong (l := ks) h.of_cons
  | .locator s :: ks, n, h => pairwise_chainsAmong (l := ks) h.of_cons
  | .chain s :: ks, n, h => by
    rw [chainsAmong]
    refine List.pairwise_cons.mpr ⟨fun d hd => ?_, pairwise_chainsAmong h.of_cons⟩
    obtain ⟨h1, h2, -⟩ := mem_chainsAmong hd
    exact ⟨h1, (List.pairwise_cons.mp h).1 _ h2⟩

/-- Lists stand in the order of the page. -/
theorem pairwise_listsAmong : ∀ {l : List Token},
    (l.Pairwise fun j k => j.span.start < k.span.start) →
    (listsAmong l).Pairwise fun s t => s.span.start < t.span.start
  | [], _ => by simp [listsAmong]
  | .tag s :: ks, h => pairwise_listsAmong (l := ks) h.of_cons
  | .chain s :: ks, h => pairwise_listsAmong (l := ks) h.of_cons
  | .locator s :: ks, h => pairwise_listsAmong (l := ks) h.of_cons
  | .list s :: ks, h => by
    rw [listsAmong]
    refine List.pairwise_cons.mpr ⟨fun t ht => ?_, pairwise_listsAmong h.of_cons⟩
    exact (List.pairwise_cons.mp h).1 _ (mem_listsAmong.mp ht)

/-! ## 3. Definitions in a list -/

namespace Page

variable {p : Page} {names : List Text} {t : Template}

/-- The stretch for definitions lies between the braces of the list. -/
theorem IsInvocation.definitionSpan?_bounds (hi : p.IsInvocation t) {s : Span}
    (h : t.definitionSpan? = some s) :
    t.span.start + 2 ≤ s.start ∧ s.stop + 2 ≤ t.span.stop := by
  simp only [Template.definitionSpan?, Option.bind_eq_some_iff, Option.ite_none_left_eq_some,
    Option.some.injEq] at h
  obtain ⟨q, hq, -, rfl⟩ := h
  have hmem : q ∈ t.params := List.mem_reverse.mp (List.mem_of_find?_eq_some hq)
  have hb := hi.bounds_of_mem_params hmem
  have := hi.room
  simp only [Span.start_ofLength, Span.stop_ofLength]
  omega

/-- A definition in a list is a tag with content in the stretch for definitions. -/
theorem exists_of_mem_listedIn {o : Occurrence} (h : o ∈ p.listedIn t) :
    ∃ s tag body start, t.definitionSpan? = some s ∧ tag ∈ p.refTagsBetween s.start s.stop ∧
      tag.content = .body body start ∧
      o = ⟨tag.span, .listed body tag.group?.isSome, tag.name?,
        tag.group? <|> t.value? "group".toList⟩ := by
  unfold listedIn at h
  split at h
  · cases h
  · rename_i s hs
    obtain ⟨tag, htag, ho⟩ := List.mem_filterMap.mp h
    split at ho
    · cases ho
    · rename_i body start hc
      exact ⟨s, tag, body, start, hs, htag, hc, (Option.some.inj ho).symm⟩

/-- Where a definition stands: with its bracket, in the stretch for definitions. -/
theorem span_of_mem_listedIn {o : Occurrence} (h : o ∈ p.listedIn t) :
    ∃ s, t.definitionSpan? = some s ∧ s.start ≤ o.span.start ∧ o.span.stop ≤ s.stop ∧
      o.span.start < o.span.stop ∧ p.seen[o.span.start]? = some '<' := by
  obtain ⟨s, tag, body, start, hs, htag, -, rfl⟩ := exists_of_mem_listedIn h
  obtain ⟨h1, h2, h3, h4⟩ := span_of_mem_refTagsBetween htag
  exact ⟨s, hs, h1, Nat.le_trans h3 (Nat.min_le_left _ _), h2, h4⟩

/-- A definition stands inside its list, with room behind it. -/
theorem IsInvocation.span_of_mem_listedIn (hi : p.IsInvocation t) {o : Occurrence}
    (h : o ∈ p.listedIn t) :
    t.span.start + 2 ≤ o.span.start ∧ o.span.start < o.span.stop ∧
      o.span.stop + 2 ≤ t.span.stop := by
  obtain ⟨s, hs, h1, h2, h3, -⟩ := Page.span_of_mem_listedIn h
  have := hi.definitionSpan?_bounds hs
  omega

/-- The definitions of a list stand one behind the other. -/
theorem pairwise_listedIn (p : Page) (t : Template) :
    (p.listedIn t).Pairwise fun o o' => o.span.stop ≤ o'.span.start := by
  unfold listedIn
  split
  · exact List.Pairwise.nil
  · rename_i s _
    refine List.pairwise_filterMap.mpr
      ((pairwise_lt_refTagsBetween p s.start s.stop).imp_of_mem ?_)
    intro tag tag' hmem hmem' hlt o ho o' ho'
    have full : ∀ {u : RefTag} {v : Occurrence}, (match u.content with
        | .none => none
        | .body text _ => some ⟨u.span, .listed text u.group?.isSome, u.name?,
            u.group? <|> t.value? "group".toList⟩) = some v →
            u.isFull = true ∧ v.span = u.span := by
      intro u v huv
      cases hc : u.content with
      | none =>
        rw [hc] at huv
        cases huv
      | body text start =>
        rw [hc] at huv
        rw [RefTag.isFull, hc, ← Option.some.inj huv]
        exact ⟨rfl, rfl⟩
    obtain ⟨hf, hs⟩ := full ho
    obtain ⟨hf', hs'⟩ := full ho'
    have hstop := (span_of_mem_refTagsBetween hmem').2.1
    rw [hs, hs']
    rcases apart_of_isFull hmem hmem' hf hf' with rfl | hle | hle
    · omega
    · exact hle
    · omega

end Page

/-! ## 4. Seats -/

/-- What tells an occurrence from all others of the page. -/
inductive Seat where
  /-- The place of a tag in the running text. -/
  | tag (start : Nat)
  /-- The place of a definition in a list. -/
  | listed (start : Nat)
  /-- The number of a chain, and of a name in it. -/
  | name (chain ordinal : Nat)
  deriving DecidableEq

/-- The seat of an occurrence. -/
def Occurrence.seat (o : Occurrence) : Seat :=
  match o.form with
  | .bare | .full _ => .tag o.start
  | .listed _ _ => .listed o.start
  | .chained c i => .name c i

theorem RefTag.seat_occurrence (t : RefTag) : t.occurrence.seat = .tag t.span.start := by
  unfold RefTag.occurrence Occurrence.seat
  cases t.content <;> rfl

/-- The occurrences in a chain are its names, in order. -/
theorem Chain.mem_occurrences {c : Chain} {o : Occurrence} : o ∈ c.occurrences ↔
    ∃ i e, c.names[i]? = some e ∧
      o = ⟨c.template.span, .chained c.id i, some e.value, groupAt? c.plainEntries e.index⟩ := by
  rw [Chain.occurrences, List.mem_iff_getElem?]
  simp only [List.getElem?_mapIdx, Option.map_eq_some_iff]
  constructor
  · rintro ⟨i, e, he, rfl⟩
    exact ⟨i, e, he, rfl⟩
  · rintro ⟨i, e, he, rfl⟩
    exact ⟨i, e, he, rfl⟩

theorem Chain.seats_occurrences (c : Chain) :
    c.occurrences.map Occurrence.seat =
      (List.range c.names.length).map fun i => Seat.name c.id i := by
  refine List.ext_getElem? fun i => ?_
  simp only [Chain.occurrences, List.getElem?_map, List.getElem?_mapIdx]
  by_cases h : i < c.names.length
  · simp [h, Occurrence.seat]
  · simp [h]

namespace Page

variable {p : Page} {names : List Text}

theorem seat_of_mem_listedIn {t : Template} {o : Occurrence} (h : o ∈ p.listedIn t) :
    o.seat = .listed o.span.start := by
  obtain ⟨s, tag, body, start, -, -, -, rfl⟩ := exists_of_mem_listedIn h
  rfl

/-- What an occurrence among marks is: a tag, a definition in a list, or a name of a chain. -/
theorem mem_occurrencesAmong {o : Occurrence} : ∀ {l : List Token} {n : Nat},
    o ∈ p.occurrencesAmong n l ↔
      (∃ t, .tag t ∈ l ∧ o = t.occurrence) ∨ (∃ t, .list t ∈ l ∧ o ∈ p.listedIn t) ∨
        ∃ c ∈ chainsAmong n l, o ∈ c.occurrences
  | [], n => by simp [occurrencesAmong, chainsAmong]
  | .list s :: ks, n => by
    simp only [occurrencesAmong, List.mem_append, mem_occurrencesAmong (l := ks), chainsAmong,
      List.mem_cons, reduceCtorEq, false_or, Token.list.injEq, or_and_right, exists_or,
      exists_eq_left]
    rw [or_assoc, or_left_comm]
  | .tag s :: ks, n => by
    simp only [occurrencesAmong, mem_occurrencesAmong (l := ks), chainsAmong,
      List.mem_cons, reduceCtorEq, false_or, Token.tag.injEq, or_and_right, exists_or,
      exists_eq_left]
    rw [or_assoc]
  | .locator s :: ks, n => by
    simp only [occurrencesAmong, mem_occurrencesAmong (l := ks), chainsAmong, List.mem_cons,
      reduceCtorEq, false_or]
  | .chain s :: ks, n => by
    simp only [occurrencesAmong, List.mem_append, mem_occurrencesAmong (l := ks), chainsAmong,
      List.mem_cons, reduceCtorEq, false_or, or_and_right, exists_or, exists_eq_left]
    rw [or_left_comm]
    exact or_congr_right or_left_comm

/-- Marks in the order of the page, with the output lists one behind the other. -/
structure InOrder (p : Page) (l : List Token) : Prop where
  starts : l.Pairwise fun j k => j.span.start < k.span.start
  lists : l.Pairwise fun j k => ∀ s t, j = .list s → k = .list t → s.span.stop ≤ t.span.start
  invocation : ∀ t, .list t ∈ l → p.IsInvocation t

theorem InOrder.tail {k : Token} {l : List Token} (h : p.InOrder (k :: l)) : p.InOrder l :=
  ⟨h.starts.of_cons, h.lists.of_cons, fun t ht => h.invocation t (List.mem_cons_of_mem _ ht)⟩

theorem inOrder_tokens (p : Page) (names : List Text) : p.InOrder (p.tokens names) where
  starts := pairwise_lt_tokens p names
  lists := by
    refine (pairwise_lt_tokens p names).imp_of_mem fun {j k} hj hk hlt s t hs ht => ?_
    subst hs
    subst ht
    have hi := isInvocation_of_mem_templates (mem_tokens_list.mp hk)
    rcases Span.apart_of_pairwise (pairwise_templatesWhere p _) (mem_tokens_list.mp hj)
      (mem_tokens_list.mp hk) with rfl | hst | hts
    · exact absurd hlt (Nat.lt_irrefl _)
    · exact hst
    · have := hi.start_lt
      simp only [Token.span_list] at hlt
      omega
  invocation := fun _ ht => isInvocation_of_mem_templates (mem_tokens_list.mp ht)

/-- The seat of an occurrence among marks belongs to one of the marks. -/
def SeatAmong (n : Nat) (l : List Token) : Seat → Prop
  | .tag i => ∃ t, .tag t ∈ l ∧ t.span.start = i
  | .listed i => ∃ t, .list t ∈ l ∧ t.span.start ≤ i ∧ i < t.span.stop
  | .name c _ => n ≤ c

theorem InOrder.seatAmong {o : Occurrence} {l : List Token} {n : Nat} (h : p.InOrder l)
    (ho : o ∈ p.occurrencesAmong n l) : SeatAmong n l o.seat := by
  rcases mem_occurrencesAmong.mp ho with ⟨t, ht, rfl⟩ | ⟨t, ht, hl⟩ | ⟨c, hc, hoc⟩
  · rw [RefTag.seat_occurrence]
    exact ⟨t, ht, rfl⟩
  · have hb := (h.invocation t ht).span_of_mem_listedIn hl
    rw [seat_of_mem_listedIn hl]
    exact ⟨t, ht, by omega, by omega⟩
  · obtain ⟨i, e, -, rfl⟩ := Chain.mem_occurrences.mp hoc
    exact (mem_chainsAmong hc).1

theorem nodup_seats_listedIn (p : Page) (t : Template) :
    ((p.listedIn t).map Occurrence.seat).Nodup := by
  rw [List.Nodup, List.pairwise_map]
  refine (pairwise_listedIn p t).imp_of_mem fun {o o'} ho ho' hlt heq => ?_
  obtain ⟨s, -, -, -, hpos, -⟩ := span_of_mem_listedIn ho
  rw [seat_of_mem_listedIn ho, seat_of_mem_listedIn ho'] at heq
  have hstart : o.span.start = o'.span.start := Seat.listed.inj heq
  omega

/-- **Each occurrence has a seat of its own.**  The seats of one mark differ among themselves,
and those of later marks lie behind them or have a higher number. -/
theorem InOrder.nodup_seats : ∀ {l : List Token} {n : Nat}, p.InOrder l →
    ((p.occurrencesAmong n l).map Occurrence.seat).Nodup
  | [], n, _ => by simp [occurrencesAmong]
  | .locator t :: l, n, h => InOrder.nodup_seats (l := l) h.tail
  | .tag t :: l, n, h => by
    rw [occurrencesAmong, List.map_cons, List.nodup_cons]
    refine ⟨fun hm => ?_, h.tail.nodup_seats⟩
    obtain ⟨o, ho, heq⟩ := List.mem_map.mp hm
    have hseat := h.tail.seatAmong ho
    rw [heq, RefTag.seat_occurrence] at hseat
    obtain ⟨t', ht', hstart⟩ := hseat
    have := (List.pairwise_cons.mp h.starts).1 _ ht'
    simp only [Token.span_tag] at this
    omega
  | .list t :: l, n, h => by
    rw [occurrencesAmong, List.map_append, List.nodup_append]
    refine ⟨nodup_seats_listedIn p t, h.tail.nodup_seats, ?_⟩
    intro x hx y hy
    obtain ⟨o, ho, rfl⟩ := List.mem_map.mp hx
    obtain ⟨o', ho', rfl⟩ := List.mem_map.mp hy
    have hb := (h.invocation t List.mem_cons_self).span_of_mem_listedIn ho
    intro heq
    have hseat := h.tail.seatAmong ho'
    rw [← heq, seat_of_mem_listedIn ho] at hseat
    obtain ⟨t', ht', hle, -⟩ := hseat
    have := (List.pairwise_cons.mp h.lists).1 _ ht' t t' rfl rfl
    omega
  | .chain t :: l, n, h => by
    rw [occurrencesAmong, List.map_append, List.nodup_append]
    refine ⟨?_, h.tail.nodup_seats, ?_⟩
    · rw [Chain.seats_occurrences]
      exact List.nodup_range.map fun i j hij => by simpa using hij
    · intro x hx y hy heq
      rw [Chain.seats_occurrences] at hx
      obtain ⟨i, -, rfl⟩ := List.mem_map.mp hx
      obtain ⟨o', ho', rfl⟩ := List.mem_map.mp hy
      have hseat := h.tail.seatAmong ho'
      rw [← heq] at hseat
      exact absurd hseat (Nat.not_succ_le_self n)

/-- No two occurrences of a page share a seat. -/
theorem nodup_seats_survey (p : Page) (names : List Text) :
    ((p.survey names).occurrences.map Occurrence.seat).Nodup := by
  rw [survey_eq]
  exact (inOrder_tokens p names).nodup_seats

end Page
end CiteMarkup
