import CiteMarkup.Proofs.Page.Cuts
import CiteMarkup.Proofs.Reference.Records
/-!
# What the running text of a page cites

The uses of all references together, in the order of the page and within a chain in the order of
its names, are what the marks of the page cite one after the other (`cited_ofText`).  So the uses
of a text that is read by itself do not depend on what stands around it, and a page with edits
cites the same as long as each edit cites what stands in its place (`usesIn_spliced`).
-/

namespace CiteMarkup

/-! ## 1. Uses in order -/

/-- The number of an occurrence among those that begin where it begins. -/
def Occurrence.ordinal (o : Occurrence) : Nat :=
  match o.form with
  | .chained _ i => i
  | _ => 0

/-- The occurrence stands in front of another one, or in its place. -/
def Occurrence.before (o o' : Occurrence) : Bool :=
  o.start < o'.start || (o.start = o'.start && o.ordinal ≤ o'.ordinal)

/-- The uses of all references, in the order of the page. -/
def Model.uses (m : Model) : List Occurrence :=
  sortStable Occurrence.before (m.records.flatMap (·.uses))

/-- What the running text cites: name and group of each use, in the order of the page. -/
def Model.cited (m : Model) : List (Option Text × Option Text) :=
  m.uses.map fun o => (o.name, o.group)

/-- Name and group of each name among the entries of a chain. -/
def citedBy (entries : List Entry) : List (Option Text × Option Text) :=
  (entries.filter Entry.isName).map fun e => (some e.value, groupAt? entries e.index)

/-- Name and group of what a mark of the running text cites. -/
def Token.uses : Token → List (Option Text × Option Text)
  | .tag t => [(t.name?, t.group?)]
  | .chain t => citedBy ((placedEntries t.paramText).map (·.toEntry))
  | .locator _ | .list _ => []

/-- What the marks of a text cite, read as a page. -/
def usesIn (names : List Text) (t : Text) : List (Option Text × Option Text) :=
  ((Page.ofText t).tokens names).flatMap Token.uses

section Order

variable {p : Page} {names : List Text} {o o' : Occurrence} {ks : List Token} {n : Nat}

theorem Occurrence.before_iff : o.before o' = true ↔
    o.start < o'.start ∨ o.start = o'.start ∧ o.ordinal ≤ o'.ordinal := by
  simp [before]

theorem Chain.isListed_occurrences {c : Chain} (h : o ∈ c.occurrences) :
    o.isListed = false ∧ o.start = c.template.span.start := by
  obtain ⟨i, e, -, rfl⟩ := Chain.mem_occurrences.mp h
  exact ⟨rfl, rfl⟩

theorem Chain.isChained_occurrences {c : Chain} (h : o ∈ c.occurrences) : o.isChained = true := by
  obtain ⟨i, e, -, rfl⟩ := Chain.mem_occurrences.mp h
  rfl

theorem isListed_of_mem_listedIn {t : Template} (h : o ∈ p.listedIn t) : o.isListed = true := by
  obtain ⟨s, tag, body, start, -, -, -, rfl⟩ := Page.exists_of_mem_listedIn h
  rfl

theorem RefTag.isListed_occurrence (t : RefTag) : t.occurrence.isListed = false := by
  unfold occurrence Occurrence.isListed
  cases t.content <;> rfl

theorem RefTag.isChained_occurrence (t : RefTag) : t.occurrence.isChained = false := by
  cases hc : t.content <;> simp [RefTag.occurrence, Occurrence.isChained, hc]

/-- The uses among marks, the chains numbered from `n` on. -/
def Page.usesAmong (p : Page) (n : Nat) (ks : List Token) : List Occurrence :=
  (p.occurrencesAmong n ks).filter fun o => !o.isListed

theorem usesAmong_tag (p : Page) (n : Nat) (t : RefTag) (ks : List Token) :
    p.usesAmong n (.tag t :: ks) = t.occurrence :: p.usesAmong n ks := by
  rw [Page.usesAmong, Page.occurrencesAmong,
    List.filter_cons_of_pos (by simp [t.isListed_occurrence])]
  rfl

theorem usesAmong_chain (p : Page) (n : Nat) (t : Template) (ks : List Token) :
    p.usesAmong n (.chain t :: ks) =
      (⟨n, t, placedEntries t.paramText⟩ : Chain).occurrences ++ p.usesAmong (n + 1) ks := by
  have hall : (⟨n, t, placedEntries t.paramText⟩ : Chain).occurrences.filter
      (fun o => !o.isListed) = (⟨n, t, placedEntries t.paramText⟩ : Chain).occurrences := by
    rw [List.filter_eq_self]
    exact fun o ho => by simp [(Chain.isListed_occurrences ho).1]
  rw [Page.usesAmong, Page.occurrencesAmong, List.filter_append, hall]
  rfl

theorem usesAmong_list (p : Page) (n : Nat) (t : Template) (ks : List Token) :
    p.usesAmong n (.list t :: ks) = p.usesAmong n ks := by
  have hnone : (p.listedIn t).filter (fun o => !o.isListed) = [] := by
    rw [List.filter_eq_nil_iff]
    exact fun o ho => by simp [isListed_of_mem_listedIn ho]
  rw [Page.usesAmong, Page.occurrencesAmong, List.filter_append, hnone]
  rfl

/-- A use begins where its mark begins. -/
theorem exists_of_mem_usesAmong (h : o ∈ p.usesAmong n ks) :
    ∃ k ∈ ks, o.start = k.span.start := by
  induction ks generalizing n with
  | nil => cases h
  | cons k ks ih =>
    have hrest : ∀ {m}, o ∈ p.usesAmong m ks → ∃ l ∈ k :: ks, o.start = l.span.start := by
      intro m hm
      obtain ⟨l, hl, heq⟩ := ih hm
      exact ⟨l, List.mem_cons_of_mem _ hl, heq⟩
    cases k with
    | tag t =>
      rw [usesAmong_tag] at h
      rcases List.mem_cons.mp h with rfl | h
      · exact ⟨_, List.mem_cons_self, rfl⟩
      · exact hrest h
    | chain t =>
      rw [usesAmong_chain] at h
      rcases List.mem_append.mp h with h | h
      · exact ⟨_, List.mem_cons_self, (Chain.isListed_occurrences h).2⟩
      · exact hrest h
    | list t =>
      rw [usesAmong_list] at h
      exact hrest h
    | locator t => exact hrest h

theorem Chain.pairwise_occurrences (c : Chain) :
    c.occurrences.Pairwise fun o o' => o'.before o = false := by
  rw [Chain.occurrences, List.mapIdx_eq_zipIdx_map, List.pairwise_map, List.pairwise_iff_getElem]
  intro i j hi hj hij
  simp only [List.getElem_zipIdx, Occurrence.before, Occurrence.start, Occurrence.ordinal]
  simp
  omega

/-- **Uses stand in the order of their marks**, no two in one place. -/
theorem pairwise_usesAmong (hks : ks.Pairwise fun k l => k.span.start < l.span.start) (n : Nat) :
    (p.usesAmong n ks).Pairwise fun o o' => o'.before o = false := by
  induction ks generalizing n with
  | nil => exact List.Pairwise.nil
  | cons k ks ih =>
    obtain ⟨hfirst, hrest⟩ := List.pairwise_cons.mp hks
    have hafter : ∀ {m} {o o' : Occurrence}, o.start = k.span.start → o' ∈ p.usesAmong m ks →
        o'.before o = false := by
      intro m o o' ho ho'
      obtain ⟨l, hl, heq⟩ := exists_of_mem_usesAmong ho'
      have := hfirst l hl
      rw [Bool.eq_false_iff, Ne, Occurrence.before_iff]
      omega
    cases k with
    | tag t =>
      rw [usesAmong_tag]
      exact List.pairwise_cons.mpr ⟨fun o' ho' => hafter rfl ho', ih hrest n⟩
    | chain t =>
      rw [usesAmong_chain]
      exact List.pairwise_append.mpr ⟨Chain.pairwise_occurrences _, ih hrest _,
        fun o ho o' ho' => hafter (Chain.isListed_occurrences ho).2 ho'⟩
    | list t =>
      rw [usesAmong_list]
      exact ih hrest n
    | locator t => exact ih hrest n

theorem Chain.map_cited_occurrences (c : Chain) :
    c.occurrences.map (fun o => (o.name, o.group)) = citedBy c.plainEntries := by
  refine List.ext_getElem? fun i => ?_
  have hnames : c.plainEntries.filter Entry.isName = c.names.map (·.toEntry) := List.filter_map
  rw [Chain.occurrences, citedBy, hnames, List.getElem?_map, List.getElem?_mapIdx,
    List.getElem?_map, List.getElem?_map]
  cases c.names[i]? <;> rfl

/-- Uses say what their marks cite. -/
theorem map_cited_usesAmong (p : Page) (n : Nat) (ks : List Token) :
    (p.usesAmong n ks).map (fun o => (o.name, o.group)) = ks.flatMap Token.uses := by
  induction ks generalizing n with
  | nil => rfl
  | cons k ks ih =>
    rw [List.flatMap_cons, ← ih n]
    cases k with
    | tag t => rw [usesAmong_tag]; rfl
    | chain t =>
      rw [usesAmong_chain, List.map_append, Chain.map_cited_occurrences, ih, ih]
      rfl
    | list t => rw [usesAmong_list]; rfl
    | locator t => rfl

/-- **What the running text of a page cites is what its marks cite**, one after the other. -/
theorem cited_ofText (t : Text) (names : List Text) :
    (Model.ofText t names).cited = usesIn names t := by
  have htokens := Page.pairwise_lt_tokens (Page.ofText t) names
  have hstrict := pairwise_usesAmong (p := Page.ofText t) htokens 0
  have hperm : ((Model.ofText t names).records.flatMap (·.uses)).Perm
      ((Page.ofText t).usesAmong 0 ((Page.ofText t).tokens names)) := by
    have hsurvey := congrArg Survey.occurrences (Page.survey_eq (Page.ofText t) names)
    refine (recordsFrom_uses _).trans (((sortByStart_perm _ _).filter _).trans ?_)
    rw [hsurvey]
    exact .refl _
  have hsorted : (Model.ofText t names).uses =
      (Page.ofText t).usesAmong 0 ((Page.ofText t).tokens names) := by
    have htotal : ∀ o o' : Occurrence, o.before o' = true ∨ o'.before o = true := by
      intro o o'
      simp only [Occurrence.before_iff]
      omega
    have htrans : ∀ o o' o'' : Occurrence, o.before o' = true → o'.before o'' = true →
        o.before o'' = true := by
      intro o o' o''
      simp only [Occurrence.before_iff]
      omega
    -- two uses in one place are one use
    have : Std.Symm fun o o' : Occurrence => o.before o' = true → o'.before o = true → o = o' :=
      ⟨fun _ _ heq h h' => (heq h' h).symm⟩
    have hone := (hstrict.imp fun {o o'} h (_ : o.before o' = true) (h' : o'.before o = true) =>
      show o = o' by rw [h] at h'; cases h').forall_of_forall fun _ _ _ _ => rfl
    refine List.Perm.eq_of_pairwise (fun o o' ho ho' h h' => ?_)
      (pairwise_sortStable htotal htrans _) (hstrict.imp fun {o o'} h => ?_)
      ((sortStable_perm _ _).trans hperm)
    · exact hone ((((sortStable_perm _ _).trans hperm).mem_iff).mp ho) ho' h h'
    · exact (htotal o o').resolve_right (by simp [h])
  rw [Model.cited, hsorted, map_cited_usesAmong, usesIn]

end Order

/-! ## 2. Texts -/

section Texts

variable {names : List Text} {t u : Text} {a b : Nat} {es : List Edit}

@[simp] theorem Token.uses_shift (n : Nat) (k : Token) : (k.shift n).uses = k.uses := by
  cases k <;> rfl

/-- A text that is read by itself cites what it cites, whatever stands behind it. -/
theorem usesIn_append (hu : SelfContained names u) (v : Text) :
    usesIn names (u ++ v) = usesIn names u ++ usesIn names v := by
  rw [usesIn, hu.tokens_append, List.flatMap_append, List.flatMap_map]
  simp only [Token.uses_shift]
  rfl

/-- **Edits that cite what stands in their places do not change what a page cites.** -/
theorem usesIn_spliced (hb : Edit.Between a b es) (ha : SelfContained names (t.take a))
    (hes : ∀ e ∈ es, SelfContained names (t.take e.span.start) ∧
      SelfContained names (t.take e.span.stop) ∧ SelfContained names e.text ∧
      usesIn names e.text = usesIn names (t.cut e.span)) :
    usesIn names (Edit.spliced t b a es) = usesIn names (t.slice a b) := by
  induction es generalizing a with
  | nil => rfl
  | cons e es ih =>
    obtain ⟨hfront, hback, htext, heq⟩ := hes e List.mem_cons_self
    have hrest := ih hb.2 hback fun f hf => hes f (List.mem_cons_of_mem _ hf)
    have hcut : t.cut e.span ++ t.slice e.span.stop b = t.slice e.span.start b :=
      Text.slice_append_slice t e.span.ordered hb.2.le
    have hslice : t.slice a e.span.start ++ t.slice e.span.start b = t.slice a b :=
      Text.slice_append_slice t hb.1 (Nat.le_trans e.span.ordered hb.2.le)
    have hbefore := selfContained_slice hb.1 ha hfront
    have hplace : SelfContained names (t.cut e.span) :=
      selfContained_slice e.span.ordered hfront hback
    calc usesIn names (Edit.spliced t b a (e :: es))
        = usesIn names (t.slice a e.span.start) ++
            (usesIn names e.text ++ usesIn names (Edit.spliced t b e.span.stop es)) := by
          rw [Edit.spliced, List.append_assoc, usesIn_append hbefore, usesIn_append htext]
      _ = usesIn names (t.slice a e.span.start) ++
            (usesIn names (t.cut e.span) ++ usesIn names (t.slice e.span.stop b)) := by
          rw [heq, hrest]
      _ = usesIn names (t.slice a b) := by
          rw [← usesIn_append hplace, hcut, ← usesIn_append hbefore, hslice]

end Texts

end CiteMarkup
