import CiteMarkup.Proofs.Reference.Catalogue
import CiteMarkup.Proofs.Tag.Retagged
import CiteMarkup.Proofs.Transform.Merging
import Mathlib.Data.List.Perm.Basic
/-!
# Every occurrence of a page is held once

What there is to account for is read off the page itself (`Page.found`): one occurrence for each
tag that begins in no output list, one for each tag with content in the definitions of a list,
and one for each name of a chain.  The records hold these occurrences and no others, each of them
once and in the order of the page, and no record is empty (`occurrences_accounted`).
-/

namespace CiteMarkup

/-! ## 1. What is found on a page -/

/-- The tag that a mark is. -/
def Token.tag? : Token → Option RefTag
  | .tag t => some t
  | _ => none

/-- The output list that a mark is. -/
def Token.list? : Token → Option Template
  | .list t => some t
  | _ => none

/-- The template of a chain that a mark is. -/
def Token.chain? : Token → Option Template
  | .chain t => some t
  | _ => none

namespace Page

variable {p : Page} {names : List Text}

/-- The chains of a page, numbered as they come. -/
def foundChains (p : Page) (names : List Text) : List Chain :=
  ((p.citeMarks names).filter fun t => t.canonical = canonicalName chainName).mapIdx fun i t =>
    ⟨i, t, placedEntries t.paramText⟩

/-- The tags with content in the definitions of an output list. -/
def definitionTags (p : Page) (l : Template) : List RefTag :=
  match l.definitionSpan? with
  | none => []
  | some s => (p.refTagsBetween s.start s.stop).filter (·.isFull)

/-- The occurrence that a tag in the definitions of an output list is.  Its group is the one of
the list, unless it has its own. -/
def definitionOf (l : Template) (tag : RefTag) : Occurrence where
  span := tag.span
  form := .listed (tag.body?.getD []) tag.group?.isSome
  name := tag.name?
  group := tag.group? <|> l.group?

/-- The occurrences on a page: a tag that begins in no output list, a tag with content in the
definitions of a list, and a name of a chain are one each. -/
def found (p : Page) (names : List Text) : List Occurrence :=
  (p.refTags.filter fun t => !p.inList names t.span.start).map RefTag.occurrence ++
    (p.templates names).flatMap (fun l => (p.definitionTags l).map (definitionOf l)) ++
      (p.foundChains names).flatMap Chain.occurrences

/-- **The definitions in a list are its tags with content.** -/
theorem listedIn_eq (p : Page) (l : Template) :
    p.listedIn l = (p.definitionTags l).map (definitionOf l) := by
  unfold listedIn definitionTags
  cases l.definitionSpan? with
  | none => rfl
  | some s =>
    dsimp only
    rw [← List.filterMap_eq_filter, List.map_filterMap]
    refine List.filterMap_congr fun tag _ => ?_
    cases hcontent : tag.content with
    | none => simp [RefTag.isFull, hcontent, Option.guard]
    | body text start =>
      simp [RefTag.isFull, hcontent, Option.guard, definitionOf, RefTag.body?, Template.group?]

/-- The occurrences among marks, sorted by the kind of the mark. -/
theorem occurrencesAmong_perm (l : List Token) (n : Nat) :
    (p.occurrencesAmong n l).Perm ((l.filterMap Token.tag?).map RefTag.occurrence ++
      (listsAmong l).flatMap p.listedIn ++ (chainsAmong n l).flatMap Chain.occurrences) := by
  induction l generalizing n with
  | nil => exact List.Perm.refl []
  | cons k l ih =>
    cases k with
    | tag t => exact (ih n).cons _
    | locator t => exact ih n
    | list t =>
      refine ((ih n).append_left _).trans ?_
      simp only [List.filterMap_cons, Token.tag?, listsAmong, chainsAmong, List.flatMap_cons,
        List.append_assoc]
      exact List.perm_append_comm_assoc _ _ _
    | chain t =>
      refine ((ih (n + 1)).append_left _).trans ?_
      simp only [List.filterMap_cons, Token.tag?, listsAmong, chainsAmong, List.flatMap_cons]
      exact List.perm_append_comm_assoc _ _ _

theorem listsAmong_eq (l : List Token) : listsAmong l = l.filterMap Token.list? := by
  induction l with
  | nil => rfl
  | cons k l ih =>
    cases k with
    | list t => exact congrArg (t :: ·) ih
    | tag t => exact ih
    | chain t => exact ih
    | locator t => exact ih

theorem chainsAmong_eq (l : List Token) (n : Nat) :
    chainsAmong n l = (l.filterMap Token.chain?).mapIdx fun i t =>
      ⟨n + i, t, placedEntries t.paramText⟩ := by
  induction l generalizing n with
  | nil => rfl
  | cons k l ih =>
    cases k with
    | chain t =>
      simp only [chainsAmong, Token.chain?, List.filterMap_cons, List.mapIdx_cons, ih (n + 1)]
      congr 2
      funext i t
      congr 1
      omega
    | tag t => exact ih n
    | list t => exact ih n
    | locator t => exact ih n

/-- What is picked from the marks of a page is picked from its lists, tags and citations. -/
theorem filterMap_tokens_perm {α : Type} (f : Token → Option α) (p : Page) (names : List Text) :
    ((p.tokens names).filterMap f).Perm ((p.templates names).filterMap (fun t => f (.list t)) ++
      (p.tagMarks names).filterMap (fun t => f (.tag t)) ++
        (p.citeMarks names).filterMap fun t => f (Token.ofTemplate t)) := by
  rw [tokens_eq]
  refine ((sortByStart_perm _ _).filterMap f).trans (.of_eq ?_)
  simp only [List.filterMap_append, List.filterMap_map, Function.comp_def]

/-- The tags among the marks of a page are those that begin in no output list. -/
theorem tags_perm (p : Page) (names : List Text) :
    ((p.tokens names).filterMap Token.tag?).Perm (p.tagMarks names) := by
  have hcites : ((p.citeMarks names).filterMap fun t => (Token.ofTemplate t).tag?) = [] := by
    refine List.filterMap_eq_nil_iff.mpr fun t _ => ?_
    rcases Token.ofTemplate_cases t with h | h <;> rw [h] <;> rfl
  refine (filterMap_tokens_perm _ p names).trans (.of_eq ?_)
  rw [hcites]
  simp [Token.tag?]

theorem lists_perm (p : Page) (names : List Text) :
    (listsAmong (p.tokens names)).Perm (p.templates names) := by
  have hcites : ((p.citeMarks names).filterMap fun t => (Token.ofTemplate t).list?) = [] := by
    refine List.filterMap_eq_nil_iff.mpr fun t _ => ?_
    rcases Token.ofTemplate_cases t with h | h <;> rw [h] <;> rfl
  rw [listsAmong_eq]
  refine (filterMap_tokens_perm _ p names).trans (.of_eq ?_)
  rw [hcites]
  simp [Token.list?]

/-- The chains among the marks of a page, as they come. -/
theorem chains_eq (p : Page) (names : List Text) :
    chainsAmong 0 (p.tokens names) = p.foundChains names := by
  have hcites : ((p.citeMarks names).filterMap fun t => (Token.ofTemplate t).chain?) =
      (p.citeMarks names).filter fun t => t.canonical = canonicalName chainName := by
    rw [← List.filterMap_eq_filter]
    refine List.filterMap_congr fun t _ => ?_
    by_cases h : t.canonical = canonicalName chainName <;>
      simp [Token.ofTemplate, Token.chain?, Option.guard, h]
  have hperm : ((p.tokens names).filterMap Token.chain?).Perm
      ((p.citeMarks names).filter fun t => t.canonical = canonicalName chainName) := by
    refine (filterMap_tokens_perm _ p names).trans (.of_eq ?_)
    rw [hcites]
    simp [Token.chain?]
  -- both stand in the order of the page, and no two templates begin at one place
  have hleft : ((p.tokens names).filterMap Token.chain?).Pairwise
      fun s t => s.span.start < t.span.start := by
    refine (pairwise_lt_tokens p names).filterMap _ fun j k hlt s hs t ht => ?_
    cases j <;> cases k <;> simp_all [Token.chain?]
  have hright : ((p.citeMarks names).filter fun t => t.canonical = canonicalName chainName).Pairwise
      fun s t => s.span.start < t.span.start := by
    refine (((pairwise_templatesWhere p _).imp_of_mem fun {s t} hs _ hst => ?_).filter _).filter _
    exact Nat.lt_of_lt_of_le (isInvocation_of_mem hs).start_lt hst
  have heq := hperm.eq_of_pairwise (fun s t _ _ hst hts => absurd hst (by omega)) hleft hright
  rw [chainsAmong_eq, heq]
  simp [foundChains]

/-- **The occurrences of a page are those that are found on it.** -/
theorem survey_perm (p : Page) (names : List Text) :
    ((p.survey names).occurrences).Perm (p.found names) := by
  rw [survey_eq]
  refine (occurrencesAmong_perm _ 0).trans ?_
  rw [chains_eq, funext (listedIn_eq p)]
  exact (((tags_perm p names).map _).append ((lists_perm p names).flatMap_right _)).append_right _

end Page

/-! ## 2. What a record holds -/

section Records

variable {n : Nat} {records : List Record} {before os : List Occurrence} {r : Record}

/-- Records that hold parts of what came before hold parts of what has come, in its order. -/
theorem sublist_recordsFrom {held : Record → List Occurrence} {keep : Occurrence → Bool}
    (hadd : ∀ (r : Record) (o : Occurrence), held (r.add o) = held r ++ [o].filter keep)
    (hnew : ∀ r : Record, r.uses = [] → r.listed = [] → held r = [])
    (hbefore : ∀ r ∈ records, (held r).Sublist before)
    (hr : r ∈ recordsFrom n records os) : (held r).Sublist (before ++ os) := by
  induction os generalizing n records before with
  | nil => simpa [recordsFrom] using hbefore r (by simpa [recordsFrom] using hr)
  | cons o os ih =>
    rw [recordsFrom_cons] at hr
    have hone : before ++ o :: os = before ++ [o] ++ os := by simp
    rw [hone]
    refine ih (fun s hs => ?_) hr
    have hkept : ([o].filter keep).Sublist [o] := List.filter_sublist
    rcases mem_sortInto _ _ hs with h | ⟨s', hs', rfl⟩ | rfl
    · exact (hbefore s h).trans (List.sublist_append_left _ _)
    · rw [hadd]
      exact (hbefore s' hs').append hkept
    · rw [Record.opening, hadd, hnew _ rfl rfl]
      exact (List.nil_sublist before).append hkept

end Records

/-! ## 3. The records of a page -/

/-- The records of a model account for what is found on a page. -/
structure Model.HoldsFound (m : Model) (p : Page) (names : List Text) : Prop where
  /-- Together they hold what is found on the page, each occurrence once. -/
  found : (m.records.flatMap fun r => r.uses ++ r.listed).Perm (p.found names)
  /-- The uses of a record stand in the order of the page. -/
  uses : ∀ r ∈ m.records, r.uses.Pairwise fun o o' => o.start ≤ o'.start
  /-- So do its definitions in lists, and these are all that it holds of the lists. -/
  listed : ∀ r ∈ m.records, r.listed.Pairwise (fun o o' => o.start ≤ o'.start) ∧
    (∀ o ∈ r.listed, o.isListed = true) ∧ ∀ o ∈ r.uses, o.isListed = false
  /-- Its definitions in the running text are the uses with content, in the same order. -/
  definitions : ∀ r ∈ m.records, r.definitions = r.uses.filter (·.isFull) ∧
    r.definitions.Pairwise fun o o' => o.start ≤ o'.start
  /-- The definitions of all records are the tags with content that begin in no output list. -/
  bodies : (m.records.flatMap (·.definitions)).Perm
    (((p.refTags.filter fun t => !p.inList names t.span.start).filter (·.isFull)).map
      RefTag.occurrence)
  /-- No record is empty. -/
  nonempty : ∀ r ∈ m.records, r.uses ++ r.listed ≠ []
  /-- No two records have one key. -/
  keys : (m.records.map (·.key)).Nodup
  /-- The chains of the model are those of the page. -/
  chains : m.chains = p.foundChains names
  /-- A name of a chain is a use of one record and of no other. -/
  chained : ∀ c ∈ m.chains, ∀ i < c.names.length,
    ∃! r, r ∈ m.records ∧ ∃ o ∈ r.uses, o.form = .chained c.id i

section Model

variable {t : Text} {names : List Text} {r : Record}

theorem listed_of_mem (hr : r ∈ (Model.ofText t names).records) :
    (∀ o ∈ r.listed, o.isListed = true) ∧ ∀ o ∈ r.uses, o.isListed = false :=
  ⟨fun _ ho => ((accounts_ofText t names).mem_survey_of_listed hr ho).2,
    fun _ ho => ((accounts_ofText t names).mem_survey_of_use hr ho).2⟩

/-- What a record holds stands in the order of the page. -/
theorem sublist_sorted (hr : r ∈ (Model.ofText t names).records) :
    r.uses.Sublist (sortedOccurrences names t) ∧ r.listed.Sublist (sortedOccurrences names t) := by
  have hnone : ∀ held : Record → List Occurrence, ∀ r ∈ [], (held r).Sublist [] :=
    fun _ _ h => by cases h
  rw [records_ofText] at hr
  constructor
  · exact sublist_recordsFrom (fun r o => Record.uses_add o r) (fun r hu _ => hu) (hnone _) hr
  · exact sublist_recordsFrom (fun r o => Record.listed_add o r) (fun r _ hl => hl) (hnone _) hr

theorem pairwise_of_sublist {os : List Occurrence} (h : os.Sublist (sortedOccurrences names t)) :
    os.Pairwise fun o o' => o.start ≤ o'.start :=
  (pairwise_sortByStart _ _).sublist h

/-- The records hold what is found on the page. -/
theorem held_perm (t : Text) (names : List Text) :
    ((Model.ofText t names).records.flatMap fun r => r.uses ++ r.listed).Perm
      ((Page.ofText t).found names) := by
  have h := accounts_ofText t names
  have hparts : ((Model.ofText t names).records.flatMap fun r => r.uses ++ r.listed).Perm
      ((Model.ofText t names).records.flatMap (·.uses) ++
        (Model.ofText t names).records.flatMap (·.listed)) :=
    (List.flatMap_append_perm _ _ _).symm
  have hall : ((((Page.ofText t).survey names).occurrences.filter fun o => !o.isListed) ++
      ((Page.ofText t).survey names).occurrences.filter (·.isListed)).Perm
        ((Page.ofText t).survey names).occurrences :=
    List.perm_append_comm.trans (List.filter_append_perm _ _)
  exact (hparts.trans (h.uses.append h.listed)).trans (hall.trans (Page.survey_perm _ _))

/-- What has content in the running text is a tag there. -/
theorem filter_isFull_found (p : Page) (names : List Text) :
    ((p.found names).filter fun o => !o.isListed).filter (·.isFull) =
      ((p.tagMarks names).filter (·.isFull)).map RefTag.occurrence := by
  have htag : ∀ t : RefTag, t.occurrence.isListed = false ∧ t.occurrence.isFull = t.isFull := by
    intro t
    cases hc : t.content <;>
      simp [RefTag.occurrence, Occurrence.isListed, Occurrence.isFull, RefTag.isFull, hc]
  have hlists : ((p.templates names).flatMap fun l =>
      (p.definitionTags l).map (Page.definitionOf l)).filter
        (fun o => o.isFull && !o.isListed) = [] := by
    refine List.filter_eq_nil_iff.mpr fun o ho => ?_
    obtain ⟨l, -, ho⟩ := List.mem_flatMap.mp ho
    obtain ⟨tag, -, rfl⟩ := List.mem_map.mp ho
    simp [Page.definitionOf, Occurrence.isFull]
  have hchains : ((p.foundChains names).flatMap Chain.occurrences).filter
      (fun o => o.isFull && !o.isListed) = [] := by
    refine List.filter_eq_nil_iff.mpr fun o ho => ?_
    obtain ⟨c, -, ho⟩ := List.mem_flatMap.mp ho
    obtain ⟨i, e, -, rfl⟩ := Chain.mem_occurrences.mp ho
    simp [Occurrence.isFull]
  rw [List.filter_filter, Page.found, List.filter_append, List.filter_append, hlists, hchains,
    List.append_nil, List.append_nil, List.filter_map]
  refine congrArg _ (List.filter_congr fun t _ => ?_)
  simp [htag]

theorem definitions_perm (t : Text) (names : List Text) :
    ((Model.ofText t names).records.flatMap (·.definitions)).Perm
      ((((Page.ofText t).tagMarks names).filter (·.isFull)).map RefTag.occurrence) := by
  have huses : (Model.ofText t names).records.flatMap (·.definitions) =
      ((Model.ofText t names).records.flatMap (·.uses)).filter (·.isFull) := by
    rw [List.filter_flatMap]
    exact List.flatMap_congr fun r _ => r.definitions_eq
  rw [huses, ← filter_isFull_found]
  exact ((accounts_ofText t names).uses.trans ((Page.survey_perm _ _).filter _)).filter _

/-- A name of a chain is a use of a record. -/
theorem exists_chained {c : Chain} {i : Nat} (hc : c ∈ (Model.ofText t names).chains)
    (hi : i < c.names.length) :
    ∃ r ∈ (Model.ofText t names).records, ∃ o ∈ r.uses, o.form = .chained c.id i := by
  obtain ⟨e, he⟩ : ∃ e, c.names[i]? = some e := ⟨_, List.getElem?_eq_getElem hi⟩
  have hocc : _ ∈ c.occurrences := Chain.mem_occurrences.mpr ⟨i, e, he, rfl⟩
  have hchains : (Model.ofText t names).chains = (Page.ofText t).foundChains names :=
    (congrArg Survey.chains (Page.survey_eq _ _)).trans (Page.chains_eq _ _)
  have hfound := (held_perm t names).mem_iff.mpr
    (List.mem_append_right _ (List.mem_flatMap.mpr ⟨c, hchains ▸ hc, hocc⟩))
  obtain ⟨r, hr, ho⟩ := List.mem_flatMap.mp hfound
  rcases List.mem_append.mp ho with ho | ho
  · exact ⟨r, hr, _, ho, rfl⟩
  · -- a name of a chain stands in no output list
    have hlisted := (listed_of_mem hr).1 _ ho
    cases hlisted

/-- **Every occurrence of a page is accounted for exactly once.** -/
theorem occurrences_accounted (t : Text) (names : List Text) :
    (Model.ofText t names).HoldsFound (Page.ofText t) names where
  found := held_perm t names
  uses r hr := pairwise_of_sublist (sublist_sorted hr).1
  listed r hr := ⟨pairwise_of_sublist (sublist_sorted hr).2, listed_of_mem hr⟩
  definitions r hr := by
    have hsub : r.definitions.Sublist r.uses := by
      rw [r.definitions_eq]
      exact List.filter_sublist
    exact ⟨r.definitions_eq, pairwise_of_sublist (hsub.trans (sublist_sorted hr).1)⟩
  bodies := definitions_perm t names
  nonempty r hr hnil := by
    have hperm := r.occurrences_perm
    rw [hnil] at hperm
    exact occurrences_ne_nil hr hperm.eq_nil
  keys := (numbered_recordsFrom _).keys
  chains := (congrArg Survey.chains (Page.survey_eq _ _)).trans (Page.chains_eq _ _)
  chained c hc i hi := by
    obtain ⟨r, hr, o, ho, hform⟩ := exists_chained hc hi
    refine ⟨r, ⟨hr, o, ho, hform⟩, ?_⟩
    rintro s ⟨hs, o', ho', hform'⟩
    have hseat : o'.seat = o.seat := by
      rw [Occurrence.seat, Occurrence.seat, hform, hform']
    exact ((accounts_ofText t names).unique_use hs hr ho' ho hseat).1

end Model

end CiteMarkup
