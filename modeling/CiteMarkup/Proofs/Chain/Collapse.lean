import CiteMarkup.Proofs.Chain.Links
import CiteMarkup.Proofs.Page.Cuts
/-!
# Joined citations

A run that is joined is a stretch of the page, and the chain in its place cites what the stretch
cites (`reading_joined`).  What stands around it is read as before, if the page can be cut in
front of the run and behind it (`reading_spliced`).  So a page with its runs joined cites what
the page cites, and no locator loses a value, as long as each run that is joined fits into a
chain (`FitsAsChain`); `citations_joined` says so, and `lost_locator` shows what happens
otherwise.
-/

namespace CiteMarkup

variable {names : List Text} {t x : Text} {run : List CiteUnit} {links : List Link} {e : Edit}

/-! ## 1. Chains that are written from links -/

/-- A value that can stand in a chain as it is. -/
structure StandsInChain (v : Text) : Prop where
  plain : IsPlainText v
  closed : IsClosed v

instance (v : Text) : Decidable (StandsInChain v) :=
  decidable_of_iff (IsPlainText v ∧ IsClosed v)
    ⟨fun h => ⟨h.1, h.2⟩, fun h => ⟨h.plain, h.closed⟩⟩

theorem StandsInChain.assignment {key v : Text} (hkey : IsLabel key) (htag : '<' ∉ key)
    (h : StandsInChain v) : StandsInChain (assignment key v) := by
  have hnot : ∀ c ∈ ['{', '}'], c ∉ key := fun c hc hmem => by
    have := hkey c hmem
    simp only [List.mem_cons, List.not_mem_nil, or_false] at hc this
    rcases hc with rfl | rfl <;> simp at this
  have hkey' : IsPlainText key :=
    ⟨htag, hasPair_eq_false_of_not_mem (hnot _ (by simp)),
      hasPair_eq_false_of_not_mem (hnot _ (by simp)),
      fun hlast => hnot '}' (by simp) (List.mem_of_getLast? hlast)⟩
  exact ⟨isPlainText_append_cons (by decide) hkey' h.plain, isClosed_assignment hkey h.closed⟩

theorem StandsInChain.assignment_of_isKey {key v : Text} (hkey : IsKey key)
    (h : StandsInChain v) : StandsInChain (CiteMarkup.assignment key v) :=
  h.assignment (isLabel_of_isKey hkey) fun hmem => ne_of_isKey hkey hmem (by decide) rfl

/-- **A chain that is written from links is read by itself and cites the links.** -/
theorem selfContained_writeLinks (hne : links ≠ [])
    (hvalues : ∀ l ∈ links, ∀ v ∈ l.values, IsValue v ∧ StandsInChain v)
    (hnames : isNameOf names (canonicalName chainName) = false) :
    SelfContained names (writeLinks links) ∧ ∃ c : Template,
      (Page.ofText (writeLinks links)).tokens names = [.chain c] ∧
        c.span = Span.ofLength 0 (writeLinks links).length ∧ c.links = links := by
  have hparams := forall_mem_linkParamsFrom (P := StandsInChain)
    (fun _ _ => StandsInChain.assignment_of_isKey) (fun l hl v hv => (hvalues l hl v hv).2) 1 0
  have hplain := isPlainText_join fun s hs => (hparams s hs).plain
  obtain ⟨hself, htokens⟩ := selfContained_written List.mem_cons_self hnames hplain
  have hentries := placedEntries_linkParams hne fun l hl v hv =>
    ⟨(hvalues l hl v hv).1, (hvalues l hl v hv).2.closed⟩
  exact ⟨hself, writtenInvocation chainName (linkParamsFrom 1 0 links), htokens, rfl,
    (congrArg entryLinks hentries).trans (entryLinks_linkEntriesFrom 1 0)⟩

/-- A written chain, with what stands behind it. -/
theorem reading_writeLinks_append (hne : links ≠ [])
    (hvalues : ∀ l ∈ links, ∀ v ∈ l.values, IsValue v ∧ StandsInChain v)
    (hnames : isNameOf names (canonicalName chainName) = false) (x : Text) :
    reading names (writeLinks links ++ x) =
      ⟨[], locateLast (reading names x).leading links ++ (reading names x).links⟩ := by
  obtain ⟨hself, c, htokens, hspan, hlinks⟩ := selfContained_writeLinks hne hvalues hnames
  have hlength : (writeLinks links).veil.length = c.span.stop := by
    rw [hspan, length_veil, Span.stop_ofLength, Nat.zero_add]
  rw [reading_append hself, htokens, List.singleton_append, readingFrom, Token.span_chain,
    readingFrom_over _ (Nat.le_of_eq hlength.symm), ← hlength, List.drop_length]
  change Reading.mk [] (locateLast _ c.links ++ _) = _
  rw [hlinks]
  rfl

/-! ## 2. The rest of a page -/

section Rest

variable {a b : Nat} {k : Token}

theorem readingFrom_drop (ha : SelfContained names (t.take a)) (hle : a ≤ t.length) :
    readingFrom t.veil a (((Page.ofText (t.drop a)).tokens names).map (Token.shift a)) =
      reading names (t.drop a) := by
  have hlength : (Text.veil (t.take a)).length = a := by
    rw [length_veil, List.length_take_of_le hle]
  have hveil := ha.veil (t.drop a)
  rw [List.take_append_drop] at hveil
  have h := readingFrom_shift (Text.veil (t.take a)) (Text.veil (t.drop a)) 0
    ((Page.ofText (t.drop a)).tokens names)
  rwa [hlength, Nat.add_zero, ← hveil] at h

/-- **Where a page can be cut, what is read behind is read from there.**  With edits that leave
the reading behind each of them as it is, the whole is read as before. -/
theorem reading_spliced {es : List Edit} (hb : Edit.Between a t.length es)
    (ha : SelfContained names (t.take a))
    (hes : ∀ e ∈ es, SelfContained names (t.take e.span.start) ∧
      SelfContained names (t.take e.span.stop) ∧ SelfContained names e.text ∧
      reading names (e.text ++ t.drop e.span.stop) = reading names (t.drop e.span.start)) :
    reading names (Edit.spliced t t.length a es) = reading names (t.drop a) := by
  induction es generalizing a with
  | nil => rw [Edit.spliced, Text.slice_length]
  | cons e es ih =>
    obtain ⟨hfront, hback, htext, heq⟩ := hes e List.mem_cons_self
    have hrest := ih hb.2 hback fun f hf => hes f (List.mem_cons_of_mem _ hf)
    have hdrop : t.slice a e.span.start ++ t.drop e.span.start = t.drop a :=
      slice_append_drop hb.1 (Nat.le_trans e.span.ordered hb.2.le)
    have hmiddle := selfContained_slice hb.1 ha hfront
    calc reading names (Edit.spliced t t.length a (e :: es))
        = reading names (t.slice a e.span.start ++
            (e.text ++ Edit.spliced t t.length e.span.stop es)) := by
          rw [Edit.spliced, List.append_assoc]
      _ = reading names (t.slice a e.span.start ++ t.drop e.span.start) :=
          reading_append_congr hmiddle ((reading_append_congr htext hrest).trans heq)
      _ = reading names (t.drop a) := by rw [hdrop]

end Rest

/-! ## 3. One run -/

/-- What an edit that joins a run does. -/
theorem exists_of_mem_joinRun (h : e ∈ (joinRun t run).1) :
    (joinRun t run).1 = [e] ∧ runSpan? run = some e.span ∧
      ∃ links, runLinks run = .ok links ∧ e.text = writeLinks links := by
  unfold joinRun at h ⊢
  split at h
  · cases h
  · rename_i span hspan
    simp only [hspan] at h ⊢
    split at h
    · cases h
    · rename_i hjoin
      rw [if_neg hjoin]
      split at h
      · cases h
      · rename_i links hlinks
        simp only [hlinks] at h ⊢
        split at h
        · cases h
        · rename_i hchain
          obtain rfl := List.mem_singleton.mp h
          exact ⟨if_neg hchain, rfl, links, rfl, rfl⟩

/-- A run of a page fits into a chain: the page can be cut in front of it and behind it, it has
no other marks inside, what it says can stand in a chain, and its locators move no citation into
another group. -/
structure FitsAsChain (names : List Text) (t : Text) (run : List CiteUnit) (span : Span) :
    Prop where
  front : SelfContained names (t.take span.start)
  back : SelfContained names (t.take span.stop)
  alone : ∀ k ∈ (Page.ofText t).tokens names, span.contains k.span.start = true →
    k ∈ run.flatMap CiteUnit.tokens
  plain : ∀ links, runLinks run = .ok links → ∀ l ∈ links, ∀ v ∈ l.values, StandsInChain v
  groups : ∀ u ∈ run, u.KeepsGroup

section Run

variable {span : Span}

theorem sublist_tokens_run (hrun : run ∈ (Page.ofText t).runs names) :
    (run.flatMap CiteUnit.tokens).Sublist ((Page.ofText t).tokens names) := by
  obtain ⟨front, back, heq⟩ := List.append_of_mem hrun
  have h := sublist_tokens_runs (Page.ofText t) names
  rw [heq, List.flatMap_append, List.flatMap_cons] at h
  exact ((List.sublist_append_left _ _).trans (List.sublist_append_right _ _)).trans h

/-- The marks of a run begin in its stretch, the first one at its beginning. -/
theorem bounds_of_run (hrun : run ∈ (Page.ofText t).runs names) (hspan : runSpan? run = some span) :
    span.start < span.stop ∧ span.stop ≤ t.length ∧
      (∃ k ∈ run.flatMap CiteUnit.tokens, k.span.start = span.start) ∧
      ∀ k ∈ run.flatMap CiteUnit.tokens, span.start ≤ k.span.start ∧ k.span.start < span.stop := by
  have hsub := sublist_tokens_run hrun
  have hpair := (Page.pairwise_lt_tokens (Page.ofText t) names).sublist hsub
  obtain ⟨s, first, last, hs, hfirst, hlast, hstart, hstop⟩ := (isRun_of_mem_runs hrun).span_eq
  obtain rfl : span = s := Option.some.inj (hspan.symm.trans hs)
  -- the first mark is the citation of the first unit, the last one ends the last unit
  obtain ⟨rest, hrest⟩ := List.head?_eq_some_iff.mp hfirst
  obtain ⟨front, hfront⟩ := List.getLast?_eq_some_iff.mp hlast
  obtain ⟨back, hback⟩ := List.getLast?_eq_some_iff.mp last.getLast?_tokens
  have hhead : run.flatMap CiteUnit.tokens = first.cite.token ::
      ((first.locator.map Token.locator).toList ++ rest.flatMap CiteUnit.tokens) := by
    rw [hrest]
    rfl
  have htail : run.flatMap CiteUnit.tokens =
      front.flatMap CiteUnit.tokens ++ back ++ [last.last] := by
    rw [hfront, List.flatMap_append, List.flatMap_singleton, hback, List.append_assoc]
  have hfirstMem : first.cite.token ∈ run.flatMap CiteUnit.tokens := by simp [hhead]
  have hlastMem : last.last ∈ run.flatMap CiteUnit.tokens := by simp [htail]
  have hbegin : first.cite.token.span.start = span.start := by rw [CiteUnit.span_token, hstart]
  have hbounds := Page.span_of_mem_tokens (hsub.mem hlastMem)
  have hfrom : ∀ k ∈ run.flatMap CiteUnit.tokens, span.start ≤ k.span.start := by
    intro k hk
    rw [hhead] at hpair hk
    rcases List.mem_cons.mp hk with rfl | hk
    · exact Nat.le_of_eq hbegin.symm
    · have := (List.pairwise_cons.mp hpair).1 k hk
      omega
  have hto : ∀ k ∈ run.flatMap CiteUnit.tokens, k.span.start ≤ last.last.span.start := by
    intro k hk
    rw [htail] at hpair hk
    rcases List.mem_append.mp hk with hk | hk
    · exact Nat.le_of_lt ((List.pairwise_append.mp hpair).2.2 k hk _ List.mem_cons_self)
    · obtain rfl := List.mem_singleton.mp hk
      exact Nat.le_refl _
  have hle := hfrom _ hlastMem
  refine ⟨by omega, ?_, ⟨_, hfirstMem, hbegin⟩, fun k hk => ⟨hfrom k hk, ?_⟩⟩
  · rw [hstop]
    exact hbounds.2
  · have := hto k hk
    omega

/-- Behind the beginning of a run stand its marks, and behind them those behind its end. -/
theorem tokens_drop_of_run (hrun : run ∈ (Page.ofText t).runs names)
    (hspan : runSpan? run = some span) (hfit : FitsAsChain names t run span) :
    ((Page.ofText (t.drop span.start)).tokens names).map (Token.shift span.start) =
      run.flatMap CiteUnit.tokens ++
        ((Page.ofText (t.drop span.stop)).tokens names).map (Token.shift span.stop) := by
  obtain ⟨hlt, hle, -, hbounds⟩ := bounds_of_run hrun hspan
  have hsub := sublist_tokens_run hrun
  have hshifted : ∀ n (p : Page), ((p.tokens names).map (Token.shift n)).Pairwise
      fun k l => k.span.start < l.span.start := fun n p => by
    rw [List.pairwise_map]
    refine (Page.pairwise_lt_tokens p names).imp fun {k l} hkl => ?_
    rw [Token.span_shift, Token.span_shift, Span.start_shift, Span.start_shift]
    omega
  refine Page.eq_of_mem_iff (hshifted _ _) ?_ fun k => ?_
  · refine List.pairwise_append.mpr ⟨(Page.pairwise_lt_tokens _ names).sublist hsub, hshifted _ _,
      fun k hk l hl => ?_⟩
    have := (hbounds k hk).2
    have := ((mem_tokens_drop hfit.back hle).mp hl).2
    omega
  · rw [mem_tokens_drop hfit.front (by omega), List.mem_append, mem_tokens_drop hfit.back hle]
    constructor
    · rintro ⟨hk, hstart⟩
      by_cases hstop : span.stop ≤ k.span.start
      · exact .inr ⟨hk, hstop⟩
      · exact .inl (hfit.alone k hk (Span.contains_iff.mpr ⟨hstart, by omega⟩))
    · rintro (hk | ⟨hk, hstop⟩)
      · exact ⟨hsub.mem hk, (hbounds k hk).1⟩
      · exact ⟨hk, by omega⟩

/-- What a run says are values that can stand in a chain. -/
theorem values_of_run (hrun : run ∈ (Page.ofText t).runs names)
    (hfit : FitsAsChain names t run span) (hlinks : runLinks run = .ok links) :
    ∀ l ∈ links, ∀ v ∈ l.values, IsValue v ∧ StandsInChain v := by
  intro l hl v hv
  have hunits : ∀ u ∈ run, u.IsUnit (Page.ofText t).seen ∧
      u.cite.token ∈ (Page.ofText t).tokens names := fun u hu =>
    ⟨(isRun_of_mem_runs hrun).units u hu, (sublist_tokens_run hrun).mem
      (List.mem_flatMap.mpr ⟨u, hu, List.mem_cons_self⟩)⟩
  exact ⟨isValue_of_run hunits hlinks hl hv, hfit.plain links hlinks l hl v hv⟩

/-- **The chain in the place of a run cites what the run cites.** -/
theorem reading_joined (hrun : run ∈ (Page.ofText t).runs names)
    (hspan : runSpan? run = some span) (hfit : FitsAsChain names t run span)
    (hlinks : runLinks run = .ok links)
    (hnames : isNameOf names (canonicalName chainName) = false) :
    links ≠ [] ∧ reading names (writeLinks links ++ t.drop span.stop) =
      reading names (t.drop span.start) := by
  obtain ⟨hlt, hle, -, -⟩ := bounds_of_run hrun hspan
  obtain ⟨s, -, last, hs, -, hlast, -, hstop⟩ := (isRun_of_mem_runs hrun).span_eq
  obtain rfl : span = s := Option.some.inj (hspan.symm.trans hs)
  obtain ⟨hread, hne⟩ := readingFrom_run (isRun_of_mem_runs hrun) hlinks hfit.groups hlast
    span.start (((Page.ofText (t.drop span.stop)).tokens names).map (Token.shift span.stop))
  rw [← hstop, veil_ofText, readingFrom_drop hfit.back hle] at hread
  refine ⟨hne, ?_⟩
  rw [reading_writeLinks_append hne (values_of_run hrun hfit hlinks) hnames,
    ← readingFrom_drop hfit.front (by omega), tokens_drop_of_run hrun hspan hfit, hread]

end Run

/-! ## 4. All runs -/

section Runs

/-- A run is joined: there is an edit for it. -/
def IsJoined (t : Text) (run : List CiteUnit) : Prop := (joinRun t run).1 ≠ []

instance (t : Text) (run : List CiteUnit) : Decidable (IsJoined t run) :=
  inferInstanceAs (Decidable (_ ≠ _))

/-- The edits that join the runs of a page. -/
def joinEdits (names : List Text) (t : Text) : List Edit :=
  (((Page.ofText t).runs names).map (joinRun t)).flatMap (·.1)

/-- All runs that are joined fit into chains. -/
def AllFit (names : List Text) (t : Text) : Prop :=
  ∀ run ∈ (Page.ofText t).runs names, ∀ e ∈ (joinRun t run).1, FitsAsChain names t run e.span

theorem exists_of_mem_joinEdits (h : e ∈ joinEdits names t) :
    ∃ run ∈ (Page.ofText t).runs names, e ∈ (joinRun t run).1 := by
  obtain ⟨result, hresult, he⟩ := List.mem_flatMap.mp h
  obtain ⟨run, hrun, rfl⟩ := List.mem_map.mp hresult
  exact ⟨run, hrun, he⟩

/-- Joined runs stand one behind the other. -/
theorem pairwise_joinEdits (hall : AllFit names t) :
    (joinEdits names t).Pairwise fun e f => e.span.stop ≤ f.span.start := by
  have htokens : (((Page.ofText t).runs names).flatMap
      (·.flatMap CiteUnit.tokens)).Pairwise fun k l => k.span.start < l.span.start :=
    (Page.pairwise_lt_tokens _ names).sublist (sublist_tokens_runs (Page.ofText t) names)
  obtain ⟨-, hruns⟩ := List.pairwise_flatMap.mp htokens
  rw [joinEdits, List.flatMap_map, List.pairwise_flatMap]
  refine ⟨fun run _ => ?_, hruns.imp_of_mem fun {r s} hr hs hrs e he f hf => ?_⟩
  · -- there is one edit for a run at most
    rcases List.eq_nil_or_concat' (joinRun t run).1 with hnil | ⟨l, e, he⟩
    · rw [hnil]
      exact List.Pairwise.nil
    · rw [(exists_of_mem_joinRun (he ▸ List.mem_append_right _ List.mem_cons_self)).1]
      exact List.pairwise_singleton _ _
  · -- the first mark of the second run is not in the first run, and so not in its stretch
    obtain ⟨-, hespan, -⟩ := exists_of_mem_joinRun he
    obtain ⟨-, hfspan, -⟩ := exists_of_mem_joinRun hf
    obtain ⟨-, -, ⟨k, hk, hkstart⟩, -⟩ := bounds_of_run hr hespan
    obtain ⟨-, -, ⟨l, hl, hlstart⟩, -⟩ := bounds_of_run hs hfspan
    have hlt := hrs k hk l hl
    by_contra hcon
    have hin := (hall r hr e he).alone l ((sublist_tokens_run hs).mem hl)
      (Span.contains_iff.mpr ⟨by omega, by omega⟩)
    exact Nat.lt_irrefl _ (hrs l hin l hl)

/-- The edits that join runs are carried out as they come. -/
theorem joinCitations_eq_spliced (hall : AllFit names t) :
    Edit.Between 0 t.length (joinEdits names t) ∧
      (joinCitations t names).1 = Edit.spliced t t.length 0 (joinEdits names t) := by
  have hpair := pairwise_joinEdits hall
  have hbounds : ∀ e ∈ joinEdits names t, e.span.start < e.span.stop ∧ e.span.stop ≤ t.length := by
    intro e he
    obtain ⟨run, hrun, hmem⟩ := exists_of_mem_joinEdits he
    obtain ⟨hlt, hle, -, -⟩ := bounds_of_run hrun (exists_of_mem_joinRun hmem).2.1
    exact ⟨hlt, hle⟩
  have hne : (joinEdits names t).Pairwise fun e f => e.span ≠ f.span :=
    hpair.imp_of_mem fun {e f} he _ hef heq => by
      have := (hbounds e he).1
      rw [← heq] at hef
      omega
  have hsettle : Edit.settle (joinEdits names t) = joinEdits names t :=
    Edit.settle_eq_self hne hpair
  have hbetween : Edit.Between 0 t.length (joinEdits names t) :=
    Edit.between_of_pairwise (Nat.zero_le _) hpair fun e he => ⟨Nat.zero_le _, (hbounds e he).2⟩
  have hdone : Edit.applyAll t (joinEdits names t) = _ :=
    Edit.applyAll_eq_spliced (by rwa [hsettle])
  have hjoined : (joinCitations t names).1 = Edit.applyAll t (joinEdits names t) := by
    rw [joinCitations, joinEdits]
  rw [hsettle] at hdone
  rw [hjoined]
  exact ⟨hbetween, hdone⟩

/-- What an edit that joins a run of the page puts there. -/
theorem joinEdits_keep (hnames : isNameOf names (canonicalName chainName) = false)
    (hall : AllFit names t) (he : e ∈ joinEdits names t) :
    SelfContained names (t.take e.span.start) ∧ SelfContained names (t.take e.span.stop) ∧
      SelfContained names e.text ∧
      reading names (e.text ++ t.drop e.span.stop) = reading names (t.drop e.span.start) := by
  obtain ⟨run, hrun, hmem⟩ := exists_of_mem_joinEdits he
  obtain ⟨-, hspan, links, hlinks, htext⟩ := exists_of_mem_joinRun hmem
  have hfit := hall run hrun e hmem
  obtain ⟨hne, hread⟩ := reading_joined hrun hspan hfit hlinks hnames
  have hself := (selfContained_writeLinks hne (values_of_run hrun hfit hlinks) hnames).1
  rw [htext]
  exact ⟨hfit.front, hfit.back, hself, hread⟩

/-- The chain that a run is joined into is a mark of the page that comes out. -/
theorem chain_mem_joined (hnames : isNameOf names (canonicalName chainName) = false)
    (hall : AllFit names t) (hrun : run ∈ (Page.ofText t).runs names) (he : e ∈ (joinRun t run).1)
    (hlinks : runLinks run = .ok links) :
    ∃ c, .chain c ∈ (Page.ofText (joinCitations t names).1).tokens names ∧ c.links = links := by
  obtain ⟨-, hspan, links', hlinks', htext⟩ := exists_of_mem_joinRun he
  obtain rfl : links = links' := Except.ok.inj (hlinks.symm.trans hlinks')
  have hfit := hall run hrun e he
  obtain ⟨hne, -⟩ := reading_joined hrun hspan hfit hlinks hnames
  obtain ⟨-, c, htokens, -, hc⟩ :=
    selfContained_writeLinks hne (values_of_run hrun hfit hlinks) hnames
  obtain ⟨hbetween, hout⟩ := joinCitations_eq_spliced hall
  have hmem : e ∈ joinEdits names t :=
    List.mem_flatMap.mpr ⟨_, List.mem_map_of_mem hrun, he⟩
  obtain ⟨n, hn⟩ := tokens_of_edit hbetween hmem fun f hf => by
    obtain ⟨hstart, hstop, htext, -⟩ := joinEdits_keep hnames hall hf
    exact ⟨hstart, hstop, htext⟩
  refine ⟨c.shift n, ?_, hc⟩
  rw [hout]
  exact hn (.chain c) (by rw [htext, htokens]; exact List.mem_cons_self)

/-- **Joining keeps the citations of a page**, in order and with their groups, pages and places,
if the runs that are joined fit into chains.  Nothing that a joined locator says is lost, if it
does not contradict itself. -/
theorem citations_joined (hnames : isNameOf names (canonicalName chainName) = false)
    (hall : AllFit names t) :
    citations names (joinCitations t names).1 = citations names t ∧
      ∀ run ∈ (Page.ofText t).runs names, IsJoined t run →
        ∀ u ∈ run, ∀ r, u.locator = some r → Locator.Consistent r.paramText →
          ∀ q ∈ (Page.bare r.paramText).params, q.value ≠ [] →
            ∃ c, .chain c ∈ (Page.ofText (joinCitations t names).1).tokens names ∧
              ∃ l ∈ c.links, l.part q.role = some q.value := by
  obtain ⟨hbetween, hout⟩ := joinCitations_eq_spliced hall
  refine ⟨?_, fun run hrun hjoined u hu r hr hconsistent q hq hvalue => ?_⟩
  · have h := reading_spliced hbetween .nil fun e he => joinEdits_keep hnames hall he
    rw [citations, citations, hout, h, List.drop_zero]
  · obtain ⟨e, he⟩ := List.exists_mem_of_ne_nil _ hjoined
    obtain ⟨-, -, links, hlinks, -⟩ := exists_of_mem_joinRun he
    obtain ⟨c, hc, hlinks'⟩ := chain_mem_joined hnames hall hrun he hlinks
    obtain ⟨ls, hls, hsub⟩ := (mem_runLinks hlinks).2 u hu
    obtain ⟨l, hl, hpart⟩ := said_of_links? hls hr hconsistent hq hvalue
    exact ⟨c, hc, l, hlinks' ▸ hsub l hl, hpart⟩

/-- A chain and a tag are joined with the locators behind them. -/
theorem citations_joined_with_locators :
    let t := "See \x7b\x7br|a\x7d\x7d\x7b\x7brp|12\x7d\x7d \x7b\x7br|b|loc=end\x7d\x7d.".toList
    (joinCitations t defaultListNames).1 =
        "See \x7b\x7br|a|p=12|b|loc2=end\x7d\x7d.".toList ∧
      citations defaultListNames (joinCitations t defaultListNames).1 =
        citations defaultListNames t ∧
      citations defaultListNames t =
        [{ name := "a".toList, page := some "12".toList },
          { name := "b".toList, place := some "end".toList }] := by
  intro t
  refine ⟨by decide +kernel, (citations_joined (by decide +kernel) ?_).1, by decide +kernel⟩
  intro run hrun e he
  have hrun' : ∀ run ∈ (Page.ofText t).runs defaultListNames, ∀ e ∈ (joinRun t run).1,
      (e.span.start = 4 ∧ e.span.stop = 36) ∧
      (∀ k ∈ (Page.ofText t).tokens defaultListNames, e.span.contains k.span.start = true →
        k ∈ run.flatMap CiteUnit.tokens) ∧
      (∀ links ∈ (runLinks run).toOption, ∀ l ∈ links, ∀ v ∈ l.values, StandsInChain v) ∧
      ∀ u ∈ run, u.KeepsGroup := by decide +kernel
  obtain ⟨⟨hstart, hstop⟩, halone, hplain, hgroups⟩ := hrun' run hrun e he
  have hsee := SelfContained.of_unbraced defaultListNames (u := "See ".toList) (by decide)
    (by decide) (by decide)
  have hgap := SelfContained.of_unbraced defaultListNames (u := [' ']) (by decide) (by decide)
    (by decide)
  have hnames : ∀ name ∈ [chainName, locatorName],
      isNameOf defaultListNames (canonicalName name) = false := by decide
  have hwritten : ∀ name ∈ [chainName, locatorName], ∀ params : List Text,
      IsPlainText (Text.join ['|'] params) →
        SelfContained defaultListNames (writeTemplate name params) := fun name hname _ hplain =>
    (selfContained_written hname (hnames name hname) hplain).1
  refine ⟨?_, ?_, halone, fun links hlinks => hplain links (by rw [hlinks]; rfl), hgroups⟩
  · rw [hstart]
    exact hsee
  · rw [hstop]
    exact (((hsee.append (hwritten chainName (by decide) ["a".toList] (by decide))).append
      (hwritten locatorName (by decide) ["12".toList] (by decide))).append hgap).append
      (hwritten chainName (by decide) ["b".toList, "loc=end".toList] (by decide))

/-- A locator that contradicts itself: the page that it gives first is lost. -/
theorem lost_locator :
    let t := "\x7b\x7br|a\x7d\x7d\x7b\x7brp|1|2\x7d\x7d".toList
    (joinCitations t defaultListNames).1 = "\x7b\x7br|a|p=2\x7d\x7d".toList ∧
      (∀ l ∈ citations defaultListNames (joinCitations t defaultListNames).1,
        "1".toList ∉ l.values) ∧
      ∃ run ∈ (Page.ofText t).runs defaultListNames, IsJoined t run ∧
        ∃ u ∈ run, ∃ r ∈ u.locator, ∃ q ∈ (Page.bare r.paramText).params,
          q.value = "1".toList := by
  intro t
  exact ⟨by decide +kernel, by decide +kernel, by decide +kernel⟩

end Runs

end CiteMarkup
