import CiteMarkup.Proofs.Chain.Rereading
import CiteMarkup.Proofs.Order.Stable
import CiteMarkup.Proofs.Page.Marks
import CiteMarkup.Proofs.Page.Veil
import CiteMarkup.Proofs.Template.Split
/-!
# What a chain can hold comes back

A value fits into a chain if it has no bar and no pair of brackets (`fitsChain`).  The parameters
of a chain that is written from such values give the links that it was written from, without
exception.

Whether the chain itself is found is another question.  Its parameters open no template, so it ends
at the first pair of closing braces that is seen (`scan_opened`), and that need not be the last one:
a value may end in a brace, which makes a pair with the first brace of the end, or hide the end in a
comment.  `written_links_read_back` says exactly when the chain is one mark, and
`chain_cut_by_brace` is a chain that is not.
-/

namespace CiteMarkup

/-! ## 1. Values that fit -/

section Fits

variable {c : Char} {t u v : Text}

/-- What fits into a chain has no bar and no pair of brackets. -/
theorem fitsChain_iff : fitsChain v = true ↔
    '|' ∉ v ∧ ∀ c ∈ ['{', '}', '[', ']'], hasPair c v = false := by
  simp only [fitsChain, Bool.not_eq_true', Bool.or_eq_false_iff, List.mem_cons, List.not_mem_nil,
    or_false, forall_eq_or_imp, forall_eq, List.elem_eq_mem, decide_eq_false_iff_not, and_assoc]

/-- What fits into a chain can stand between two bars. -/
theorem isClosed_of_fitsChain (h : fitsChain v = true) : IsClosed v := by
  obtain ⟨hbar, hpairs⟩ := fitsChain_iff.mp h
  clear h
  induction v with
  | nil => rfl
  | cons c r ih =>
    obtain ⟨hc, hr⟩ := not_or.mp (List.mem_cons.not.mp hbar)
    have hrest := ih hr fun d hd => hasPair_of_append (u := [c]) (hpairs d hd)
    have hnone : r.head?.bind (Nesting.pair? {} c) = none := by
      by_cases hbracket : c ∈ ['{', '}', '[', ']']
      · cases r with
        | nil => rfl
        | cons d r =>
          have hno := hpairs c hbracket
          have hne : d ≠ c := by
            intro heq
            rw [heq, hasPair] at hno
            simp at hno
          rw [List.head?_cons, Option.bind_some, Nesting.pair?, if_pos (Ne.symm hne)]
      · exact Nesting.bind_pair?_eq_none hbracket {} r
    rw [IsClosed] at hrest ⊢
    rw [isClosedFrom, hnone, hrest]
    simp [Ne.symm hc]

theorem hasPair_iff : hasPair c t = true ↔ ∃ i : Nat, t[i]? = some c ∧ t[i + 1]? = some c := by
  induction t with
  | nil => simp [hasPair]
  | cons a r ih =>
    cases r with
    | nil => simp [hasPair]
    | cons b r =>
      rw [hasPair, Bool.or_eq_true, ih]
      constructor
      · rintro (hpair | ⟨i, hi⟩)
        · simp only [Bool.and_eq_true, decide_eq_true_eq] at hpair
          exact ⟨0, by simp [hpair.1], by simp [hpair.2]⟩
        · exact ⟨i + 1, by simpa using hi⟩
      · rintro ⟨i, hi⟩
        cases i with
        | zero => exact .inl (by simpa using hi)
        | succ i => exact .inr ⟨i, by simpa using hi⟩

/-- A pair that is seen is written. -/
theorem hasPair_veil (hc : c ≠ veil) (h : hasPair c t = false) : hasPair c t.veil = false := by
  rw [Bool.eq_false_iff]
  intro hpair
  obtain ⟨i, hi, hi'⟩ := hasPair_iff.mp hpair
  have hwritten : hasPair c t = true :=
    hasPair_iff.mpr ⟨i, (getElem?_veil hi).resolve_right hc, (getElem?_veil hi').resolve_right hc⟩
  rw [h] at hwritten
  cases hwritten

theorem hasPair_join (hc : c ≠ '|') {parts : List Text} (h : ∀ u ∈ parts, hasPair c u = false) :
    hasPair c (Text.join ['|'] parts) = false := by
  induction parts with
  | nil => rfl
  | cons u rest ih =>
    have hu := h u List.mem_cons_self
    cases rest with
    | nil => simpa [Text.join] using hu
    | cons v rest =>
      rw [join_cons, hasPair_append_cons (Ne.symm hc), hu,
        ih fun w hw => h w (List.mem_cons_of_mem _ hw)]
      rfl

end Fits

/-! ## 2. A template that opens no other -/

section Opened

variable {wanted : Text → Bool} {t : Text} {h : Heading}

/-- With no further braces to open, the first pair of closing braces balances. -/
theorem balancedLength?_of_unopened (ht : hasPair '{' t = false) :
    balancedLength? 1 false t = (Text.indexOf? ['}', '}'] t).map (· + 2) := by
  induction t with
  | nil => rfl
  | cons c r ih =>
    have hrest := ih (hasPair_of_append (u := [c]) ht)
    have hopen : (c = '{' && r.head? = some '{') = false := by
      cases r with
      | nil => simp
      | cons d r =>
        rw [hasPair, Bool.or_eq_false_iff] at ht
        simpa using ht.1
    have hstart : Text.startsWith (c :: r) ['}', '}'] = (c = '}' && r.head? = some '}') := by
      cases r with
      | nil => simp [Text.startsWith, List.isPrefixOf]
      | cons d r => simp [Text.startsWith, List.isPrefixOf, eq_comm, Bool.beq_eq_decide_eq]
    rw [balancedLength?, hopen, Text.indexOf?, hstart]
    cases hclose : (decide (c = '}') && decide (r.head? = some '}')) with
    | true => simp
    | false =>
      simp only [Bool.false_eq_true, if_false, hrest, Option.map_map]
      rfl

theorem indexOf?_opened (t : Text) :
    Text.indexOf? ['}', '}'] ('{' :: '{' :: t) = (Text.indexOf? ['}', '}'] t).map (· + 2) := by
  have hstart : ∀ r : Text, Text.startsWith ('{' :: r) ['}', '}'] = false := fun r => by
    simp [Text.startsWith, List.isPrefixOf]
  rw [Text.indexOf?, hstart, if_neg (by simp), Text.indexOf?, hstart, if_neg (by simp),
    Option.map_map]
  rfl

theorem balancedLength?_opened (ht : hasPair '{' t = false) :
    balancedLength? 0 false ('{' :: '{' :: t) =
      (Text.indexOf? ['}', '}'] ('{' :: '{' :: t)).map (· + 2) := by
  rw [balancedLength?, if_pos (by simp), balancedLength?, balancedLength?_of_unopened ht,
    indexOf?_opened]
  simp only [Option.map_map]
  rfl

/-- **A template without another one inside** ends at the first pair of closing braces, and nothing
is found behind it. -/
theorem scan_opened (ht : hasPair '{' t = false) (hlast : t.getLast? ≠ some '{')
    (hh : heading? ('{' :: '{' :: t) = some h) :
    scan (fun _ => invocationRule wanted) ('{' :: '{' :: t) =
      if wanted (h.canonical ('{' :: '{' :: t)) then
        (Text.indexOf? ['}', '}'] ('{' :: '{' :: t)).toList.map
          fun i => ⟨Span.ofLength 0 (i + 2), h⟩
      else [] := by
  have hrule : invocationRule wanted ('{' :: '{' :: t) =
      if wanted (h.canonical ('{' :: '{' :: t)) then
        (Text.indexOf? ['}', '}'] ('{' :: '{' :: t)).elim (.jump 2) fun i => .found (i + 2) h
      else .jump 2 := by
    have hstart : Text.startsWith ('{' :: '{' :: t) ['{', '{'] = true := by simp [Text.startsWith]
    simp only [invocationRule, hstart, if_true, hh, balancedLength?_opened ht]
    cases Text.indexOf? ['}', '}'] ('{' :: '{' :: t) <;> rfl
  have hinside : scan (fun _ => invocationRule wanted) t = [] :=
    (Splits.of_unbraced wanted ht hlast).2
  -- nothing is reported, and the reading goes on behind the braces
  have hjump : invocationRule wanted ('{' :: '{' :: t) = .jump 2 →
      scan (fun _ => invocationRule wanted) ('{' :: '{' :: t) = [] := fun hjump => by
    have hlength : (invocationRule wanted (['{', '{'] ++ t)).length = 2 := by
      rw [List.cons_append, List.singleton_append, hjump]
      rfl
    have happend := scan_append_of_length (by simp) hlength
    rw [List.cons_append, List.singleton_append, hjump, hinside] at happend
    exact happend
  by_cases hw : wanted (h.canonical ('{' :: '{' :: t)) = true
  · rw [if_pos hw] at hrule ⊢
    cases hi : Text.indexOf? ['}', '}'] ('{' :: '{' :: t) with
    | none =>
      rw [hi] at hrule
      exact hjump hrule
    | some i =>
      rw [hi] at hrule
      have hbalanced := balancedLength?_opened ht
      rw [hi, Option.map_some] at hbalanced
      have hle : i + 2 ≤ ('{' :: '{' :: t).length := (balancedLength?_bounds hbalanced).1
      have htake : (('{' :: '{' :: t).take (i + 2)).length = i + 2 := List.length_take_of_le hle
      have hlength : (invocationRule wanted (('{' :: '{' :: t).take (i + 2) ++
          ('{' :: '{' :: t).drop (i + 2))).length = (('{' :: '{' :: t).take (i + 2)).length := by
        rw [List.take_append_drop, hrule, htake]
        rfl
      have hdrop : ('{' :: '{' :: t).drop (i + 2) = t.drop i := rfl
      have hbehind : scan (fun _ => invocationRule wanted) (t.drop i) = [] := by
        by_cases hnil : t.drop i = []
        · rw [hnil]
          rfl
        · have hpair : hasPair '{' (t.take i ++ t.drop i) = false := by
            rwa [List.take_append_drop]
          refine (Splits.of_unbraced wanted (hasPair_of_append hpair) ?_).2
          rwa [← List.getLast?_append_of_ne_nil (t.take i) hnil, List.take_append_drop]
      have happend := scan_append_of_length (by simp) hlength
      rw [List.take_append_drop, hrule, hdrop, hbehind] at happend
      exact happend
  · rw [if_neg hw] at hrule ⊢
    exact hjump hrule

/-- Where the first pair of closing braces stands, if the text in front of the end has none. -/
theorem indexOf?_end {t : Text} (h : hasPair '}' t = false) :
    Text.indexOf? ['}', '}'] (t ++ ['}', '}']) =
      some (if t.getLast? = some '}' then t.length - 1 else t.length) := by
  induction t with
  | nil => rfl
  | cons c r ih =>
    cases r with
    | nil =>
      by_cases hc : c = '}'
      · simp [Text.indexOf?, Text.startsWith, List.isPrefixOf, hc]
      · simp [Text.indexOf?, Text.startsWith, List.isPrefixOf, hc, Ne.symm hc]
    | cons d r =>
      rw [hasPair, Bool.or_eq_false_iff] at h
      have hstart : Text.startsWith (c :: d :: r ++ ['}', '}']) ['}', '}'] = false := by
        rw [Bool.eq_false_iff]
        intro hpair
        simp only [Text.startsWith, List.cons_append, List.isPrefixOf, Bool.and_true,
          Bool.and_eq_true, beq_iff_eq] at hpair
        simp [← hpair.1, ← hpair.2] at h
      rw [List.cons_append, Text.indexOf?, ← List.cons_append, hstart, if_neg (by simp), ih h.2,
        List.getLast?_cons_cons]
      simp only [Option.map_some, List.length_cons, Option.some.injEq]
      split <;> omega

end Opened

/-! ## 3. The marks of a written chain -/

section Marks

variable {names : List Text} {params : List Text}

/-- The page of a chain has the chain as its only mark, from its first character to its last. -/
def ReadsAsOne (names params : List Text) : Prop :=
  ∃ c : Template, (Page.ofText (writeTemplate chainName params)).tokens names = [.chain c] ∧
    c.span = Span.ofLength 0 (writeTemplate chainName params).length ∧
    c.paramText = Text.join ['|'] params

theorem writeTemplate_chain (params : List Text) : writeTemplate chainName params =
    ['{', '{', 'r', '|'] ++ (Text.join ['|'] params ++ ['}', '}']) := by
  simp [writeTemplate, chainName]

/-- A chain as it is seen: its beginning, and then no pair of opening braces. -/
theorem veil_writeTemplate (hpair : hasPair '{' (Text.join ['|'] params) = false) :
    ∃ r, (writeTemplate chainName params).veil = '{' :: '{' :: 'r' :: '|' :: r ∧
      hasPair '{' ('r' :: '|' :: r) = false ∧ ('r' :: '|' :: r).getLast? ≠ some '{' := by
  refine ⟨(Text.join ['|'] params ++ ['}', '}']).veil, ?_, ?_, ?_⟩
  · rw [writeTemplate_chain, veil_append_of_untagged (by decide)]
    rfl
  · have hend : hasPair '{' (Text.join ['|'] params ++ ['}', '}']) = false := by
      rw [hasPair_append_cons (by decide), hpair]
      rfl
    have hbar := hasPair_append_cons (c := '{') (s := '|') (by decide) (u := ['r'])
      (v := (Text.join ['|'] params ++ ['}', '}']).veil)
    rw [List.singleton_append] at hbar
    rw [hbar, hasPair_veil (by decide) hend]
    rfl
  · -- what is seen last is a brace of the end, or hidden
    intro hlast
    have hlength := length_veil (Text.join ['|'] params ++ ['}', '}'])
    have hne : (Text.join ['|'] params ++ ['}', '}']).veil ≠ [] := by
      rw [← List.length_pos_iff, hlength]
      simp
    rw [show 'r' :: '|' :: (Text.join ['|'] params ++ ['}', '}']).veil =
      ['r', '|'] ++ (Text.join ['|'] params ++ ['}', '}']).veil from rfl,
      List.getLast?_append_of_ne_nil _ hne, List.getLast?_eq_getElem?] at hlast
    have hwritten := (getElem?_veil hlast).resolve_right (by decide)
    rw [hlength, ← List.getLast?_eq_getElem?,
      List.getLast?_append_of_ne_nil _ (by simp)] at hwritten
    cases hwritten

theorem length_writeTemplate_chain (params : List Text) :
    (writeTemplate chainName params).length = 4 + (Text.join ['|'] params).length + 2 := by
  rw [writeTemplate_chain]
  simp only [List.length_append, List.length_cons, List.length_nil]
  omega

/-- On the page of a chain the only template is the chain, up to the first pair of closing braces
that is seen. -/
theorem templatesWhere_writeTemplate (hpair : hasPair '{' (Text.join ['|'] params) = false)
    (wanted : Text → Bool) :
    (Page.ofText (writeTemplate chainName params)).templatesWhere wanted =
      if wanted (canonicalName chainName) then
        (Text.indexOf? ['}', '}'] (writeTemplate chainName params).veil).toList.map fun i =>
          (Page.ofText (writeTemplate chainName params)).invocation
            ⟨Span.ofLength 0 (i + 2), ⟨1, true⟩⟩
      else [] := by
  obtain ⟨r, hseen, hunopened, hlast⟩ := veil_writeTemplate hpair
  have hname : IsTemplateName chainName := isTemplateName_of_mem List.mem_cons_self
  have hheading : heading? ('{' :: '{' :: 'r' :: '|' :: r) = some ⟨1, true⟩ := by
    have htake : ('r' :: '|' :: r).takeWhile isNameChar = ['r'] := by
      rw [List.takeWhile_cons_of_pos (by decide), List.takeWhile_cons_of_neg (by decide)]
    simp [heading?, after?, htake]
  have hcanonical : (Heading.mk 1 true).canonical ('{' :: '{' :: 'r' :: '|' :: r) =
      canonicalName chainName := canonical_written hname true ('|' :: r)
  have hscan : scan (fun _ => invocationRule wanted) ('{' :: '{' :: 'r' :: '|' :: r) = _ :=
    scan_opened hunopened hlast hheading
  rw [hcanonical, ← hseen] at hscan
  change (scan (fun _ => invocationRule wanted) (writeTemplate chainName params).veil).map _ = _
  rw [hscan]
  split
  · rw [List.map_map]
    rfl
  · rfl

/-- The chain that takes up its whole page. -/
def wholeChain (params : List Text) : Template :=
  (Page.ofText (writeTemplate chainName params)).invocation
    ⟨Span.ofLength 0 (writeTemplate chainName params).length, ⟨1, true⟩⟩

theorem paramText_wholeChain (params : List Text) :
    (wholeChain params).paramText = Text.join ['|'] params := by
  change (writeTemplate chainName params).slice 4
    (0 + (writeTemplate chainName params).length - 2) = _
  rw [Nat.zero_add, length_writeTemplate_chain, writeTemplate_chain]
  refine Text.slice_between _ _ _ rfl ?_
  simp only [List.length_cons, List.length_nil]
  omega

/-- The whole chain is a chain by its name. -/
theorem ofTemplate_wholeChain (params : List Text) :
    Token.ofTemplate (wholeChain params) = .chain (wholeChain params) := by
  have hname : (writeTemplate chainName params).slice 2 3 = ['r'] := by
    rw [writeTemplate_chain]
    exact Text.slice_between ['{', '{'] ['r'] _ rfl rfl
  have hcanonical : (wholeChain params).canonical = canonicalName chainName := by
    change canonicalName (Text.trim ((writeTemplate chainName params).slice 2 3)) = _
    rw [hname]
    rfl
  rw [Token.ofTemplate, if_pos hcanonical]

/-- **A chain without pairs of opening braces in it is one mark** if the first pair of closing
braces that is seen is its end, and no tag stands in it; and only then. -/
theorem readsAsOne_iff (hpair : hasPair '{' (Text.join ['|'] params) = false)
    (hnames : isNameOf names (canonicalName chainName) = false) :
    ReadsAsOne names params ↔
      Text.indexOf? ['}', '}'] (writeTemplate chainName params).veil =
          some ((writeTemplate chainName params).length - 2) ∧
        (Page.ofText (writeTemplate chainName params)).refTags = [] := by
  have hlists : (Page.ofText (writeTemplate chainName params)).templates names = [] := by
    rw [Page.templates, templatesWhere_writeTemplate hpair, hnames]
    rfl
  have hcites : (Page.ofText (writeTemplate chainName params)).templates [chainName, locatorName] =
      (Text.indexOf? ['}', '}'] (writeTemplate chainName params).veil).toList.map fun i =>
        (Page.ofText (writeTemplate chainName params)).invocation
          ⟨Span.ofLength 0 (i + 2), ⟨1, true⟩⟩ := by
    rw [Page.templates, templatesWhere_writeTemplate hpair, if_pos (by decide)]
  have htags : (Page.ofText (writeTemplate chainName params)).tagMarks names =
      (Page.ofText (writeTemplate chainName params)).refTags := by
    rw [Page.tagMarks, List.filter_eq_self]
    intro t _
    simp [Page.inList, hlists]
  have hlength := length_writeTemplate_chain params
  constructor
  · rintro ⟨c, htokens, hspan, -⟩
    have hmem : c ∈ (Page.ofText (writeTemplate chainName params)).templates
        [chainName, locatorName] := by
      have hchain : .chain c ∈ (Page.ofText (writeTemplate chainName params)).tokens names := by
        rw [htokens]
        exact List.mem_cons_self
      exact (List.mem_filter.mp (Page.mem_citeMarks_of_chain hchain)).1
    rw [hcites] at hmem
    obtain ⟨i, hi, rfl⟩ := List.mem_map.mp hmem
    have hstop : Span.ofLength 0 (i + 2) =
        Span.ofLength 0 (writeTemplate chainName params).length := hspan
    have hstop := congrArg Span.stop hstop
    simp only [Span.stop_ofLength] at hstop
    constructor
    · have hlast : i = (writeTemplate chainName params).length - 2 := by omega
      rw [Option.mem_toList.mp hi, hlast]
    · refine List.eq_nil_iff_forall_not_mem.mpr fun t ht => ?_
      have htag : .tag t ∈ (Page.ofText (writeTemplate chainName params)).tokens names :=
        Page.mem_tokens_tag.mpr (by rwa [htags])
      rw [htokens] at htag
      simp at htag
  · rintro ⟨hindex, hnone⟩
    have htagMarks : (Page.ofText (writeTemplate chainName params)).tagMarks names = [] := by
      rw [htags, hnone]
    have hwhole : (writeTemplate chainName params).length - 2 + 2 =
        (writeTemplate chainName params).length := by omega
    rw [hindex, Option.toList_some, List.map_singleton, hwhole, ← wholeChain] at hcites
    have hciteMarks : (Page.ofText (writeTemplate chainName params)).citeMarks names =
        [wholeChain params] := by
      rw [Page.citeMarks, hcites, htagMarks]
      simp [Page.inList, hlists]
    refine ⟨wholeChain params, ?_, rfl, paramText_wholeChain params⟩
    rw [Page.tokens_eq, hlists, htagMarks, hciteMarks,
      List.map_nil, List.map_nil, List.map_singleton,
      ofTemplate_wholeChain]
    rfl

/-- A text without the bracket of a tag has no tags. -/
theorem refTags_of_untagged {t : Text} (h : '<' ∉ t) : (Page.ofText t).refTags = [] := by
  have hseen : (Page.ofText t).seen = t := veil_of_untagged h
  obtain ⟨-, hfull⟩ := Splits.of_untagged fullTagRule h fun _ => fullTagRule_pass
  obtain ⟨-, hempty⟩ := Splits.of_untagged emptyTagRule h fun _ => emptyTagRule_pass
  refine List.eq_nil_iff_forall_not_mem.mpr fun k hk => ?_
  rw [Page.mem_refTags, Page.fullTags_eq, Page.emptyTags_eq, Page.emptyFindings, hseen, hfull,
    hempty] at hk
  simp at hk

/-- A chain without tags in it is one mark if its parameters do not end in a brace. -/
theorem readsAsOne_iff_of_untagged (hopen : hasPair '{' (Text.join ['|'] params) = false)
    (hclose : hasPair '}' (Text.join ['|'] params) = false)
    (huntagged : '<' ∉ Text.join ['|'] params)
    (hnames : isNameOf names (canonicalName chainName) = false) :
    ReadsAsOne names params ↔ (Text.join ['|'] params).getLast? ≠ some '}' := by
  have hchain : '<' ∉ writeTemplate chainName params := by
    rw [writeTemplate_chain]
    simp [huntagged]
  have hfour : ∀ t : Text, Text.indexOf? ['}', '}'] ('{' :: '{' :: 'r' :: '|' :: t) =
      (Text.indexOf? ['}', '}'] t).map (· + 4) := fun t => by
    simp [Text.indexOf?, Text.startsWith, List.isPrefixOf, Function.comp_def]
  have hindex : Text.indexOf? ['}', '}'] (writeTemplate chainName params) =
      some (4 + if (Text.join ['|'] params).getLast? = some '}' then
        (Text.join ['|'] params).length - 1 else (Text.join ['|'] params).length) := by
    rw [writeTemplate_chain, List.cons_append, List.cons_append, List.cons_append,
      List.singleton_append, hfour, indexOf?_end hclose, Option.map_some, Nat.add_comm]
  have hlength : (writeTemplate chainName params).length - 2 =
      4 + (Text.join ['|'] params).length := by
    rw [length_writeTemplate_chain, Nat.add_sub_cancel]
  rw [readsAsOne_iff hopen hnames, veil_of_untagged hchain, refTags_of_untagged hchain, hindex,
    hlength]
  simp only [and_true, Option.some.injEq, Nat.add_left_cancel_iff]
  by_cases hbrace : (Text.join ['|'] params).getLast? = some '}'
  · have hpos : (Text.join ['|'] params).length ≠ 0 := by
      intro hzero
      rw [List.length_eq_zero_iff.mp hzero] at hbrace
      cases hbrace
    simp only [hbrace, if_true, ne_eq, not_true_eq_false, iff_false]
    omega
  · simp [hbrace]

end Marks

/-! ## 4. Links -/

section Links

variable {l : Link} {links : List Link} {i count : Nat}

/-- The positions of links are those from the first one on. -/
theorem positions_linkEntriesFrom (i count : Nat) (links : List Link) :
    ((linkEntriesFrom i count links).filter (·.isName)).map (·.index) =
      List.range' i links.length := by
  induction links generalizing i count with
  | nil => rfl
  | cons l links ih =>
    have hparts : (linkKeys.filterMap (l.entryOf i)).filter (·.isName) = [] := by
      rw [List.filter_eq_nil_iff]
      intro e he
      obtain ⟨k, hk, hpart⟩ := List.mem_filterMap.mp he
      obtain ⟨v, -, rfl⟩ := Option.map_eq_some_iff.mp hpart
      have hall : ∀ k ∈ linkKeys, k.2 ≠ .name := by decide
      simpa [Entry.isName] using hall k hk
    have hname : (l.nameEntry i count).isName = true := rfl
    rw [linkEntriesFrom, List.cons_append, List.filter_cons_of_pos hname,
      List.filter_append, hparts,
      List.nil_append, List.map_cons, ih, List.length_cons, List.range'_succ]
    rfl

/-- What a link says besides its name has a known role and its position, each role once. -/
theorem parts_linkEntriesFrom (i count : Nat) (links : List Link) :
    (∀ e ∈ linkEntriesFrom i count links, e.isName = false →
      e.role ≠ .other ∧ i ≤ e.index ∧ e.index < i + links.length) ∧
    (((linkEntriesFrom i count links).filter (!·.isName)).map fun e =>
      (e.role, e.index)).Nodup := by
  induction links generalizing i count with
  | nil => simp [linkEntriesFrom]
  | cons l links ih =>
    obtain ⟨hrest, hnodup⟩ := ih (i + 1) (if needsNoKey l.name i count then count + 1 else count)
    have hparts : ∀ e ∈ linkKeys.filterMap (l.entryOf i),
        e.role ≠ .name ∧ e.role ≠ .other ∧ e.index = i := by
      intro e he
      obtain ⟨k, hk, hpart⟩ := List.mem_filterMap.mp he
      obtain ⟨v, -, rfl⟩ := Option.map_eq_some_iff.mp hpart
      have hall : ∀ k ∈ linkKeys, k.2 ≠ .name ∧ k.2 ≠ .other := by decide
      exact ⟨(hall k hk).1, (hall k hk).2, rfl⟩
    constructor
    · intro e he hname
      rw [linkEntriesFrom, List.cons_append, List.mem_cons, List.mem_append] at he
      rw [List.length_cons]
      rcases he with rfl | he | he
      · cases hname
      · obtain ⟨-, hother, hindex⟩ := hparts e he
        exact ⟨hother, by omega, by omega⟩
      · obtain ⟨hother, hlo, hhi⟩ := hrest e he hname
        exact ⟨hother, by omega, by omega⟩
    · have hkept : (linkKeys.filterMap (l.entryOf i)).filter (!·.isName) =
          linkKeys.filterMap (l.entryOf i) := by
        rw [List.filter_eq_self]
        intro e he
        simpa [Entry.isName] using (hparts e he).1
      have hname : (l.nameEntry i count).isName = true := rfl
      rw [linkEntriesFrom, List.cons_append, List.filter_cons_of_neg (by simp [hname]),
        List.filter_append, hkept, List.map_append, List.nodup_append]
      refine ⟨?_, hnodup, ?_⟩
      · -- the roles are those of different keys
        have hkeys : linkKeys.Pairwise fun k k' => k.2 ≠ k'.2 := by decide
        rw [List.Nodup, List.pairwise_map, List.pairwise_filterMap]
        refine hkeys.imp fun {k k'} hne e he f hf heq => hne ?_
        obtain ⟨v, -, rfl⟩ := Option.map_eq_some_iff.mp he
        obtain ⟨w, -, rfl⟩ := Option.map_eq_some_iff.mp hf
        exact congrArg Prod.fst heq
      · intro x hx y hy heq
        obtain ⟨e, he, rfl⟩ := List.mem_map.mp hx
        obtain ⟨f, hf, rfl⟩ := List.mem_map.mp hy
        obtain ⟨hf, hfname⟩ := List.mem_filter.mp hf
        have hindex := (hparts e he).2.2
        have hlo := (hrest f hf (by simpa using hfname)).2.1
        have hsame := congrArg Prod.snd heq
        simp only at hsame
        omega

theorem length_eraseDups_of_nodup {α : Type} [BEq α] [LawfulBEq α] {l : List α} (h : l.Nodup) :
    l.eraseDups.length = l.length :=
  ((List.perm_ext_iff_of_nodup (nodup_eraseDups l) h).mpr fun _ => List.mem_eraseDups).length_eq

/-- The entries of links can be read as links. -/
theorem areLinks_linkEntriesFrom (hne : links ≠ []) (count : Nat) :
    areLinks (linkEntriesFrom 1 count links) = true := by
  obtain ⟨hparts, hnodup⟩ := parts_linkEntriesFrom 1 count links
  have hempty : (List.range' 1 links.length).isEmpty = false := by simpa using hne
  simp only [areLinks, positions_linkEntriesFrom, Bool.and_eq_true, decide_eq_true_eq, hempty]
  refine ⟨⟨⟨rfl, length_eraseDups_of_nodup List.nodup_range'⟩, ?_⟩,
    length_eraseDups_of_nodup hnodup⟩
  rw [List.all_eq_true]
  intro e he
  obtain ⟨he, hname⟩ := List.mem_filter.mp he
  obtain ⟨hother, hlo, hhi⟩ := hparts e he (by simpa using hname)
  simp only [Bool.and_eq_true, decide_eq_true_eq, List.contains_iff_mem, List.mem_range'_1]
  exact ⟨hother, hlo, hhi⟩

/-- Each parameter of a link ends with what the link says there. -/
theorem suffix_linkParamsFrom (hvalues : ∀ l ∈ links, ∀ v ∈ l.values, v ≠ []) (i count : Nat) :
    List.Forall₂ (fun v p => v <:+ p) (links.flatMap Link.values)
      (linkParamsFrom i count links) := by
  have hassign : ∀ key v : Text, v <:+ assignment key v := fun key v =>
    ⟨key ++ ['='], by simp [assignment]⟩
  induction links generalizing i count with
  | nil => exact .nil
  | cons l links ih =>
    have hparts : ∀ keys : List (Text × Role), (∀ k ∈ keys, k ∈ linkKeys) →
        List.Forall₂ (fun v p => v <:+ p) (keys.filterMap fun k => l.part k.2)
          (keys.filterMap (l.paramOf i)) := by
      intro keys hkeys
      induction keys with
      | nil => exact .nil
      | cons k keys ihk =>
        have hrest := ihk fun x hx => hkeys x (List.mem_cons_of_mem _ hx)
        cases hpart : l.part k.2 with
        | none =>
          have hparam : l.paramOf i k = none := by simp [Link.paramOf, hpart, linkParam?]
          simp only [List.filterMap_cons, hpart, hparam]
          exact hrest
        | some v =>
          have hv : v ≠ [] := hvalues l List.mem_cons_self v (List.mem_cons_of_mem _
            (List.mem_filterMap.mpr ⟨k, hkeys k List.mem_cons_self, hpart⟩))
          have hparam : l.paramOf i k = some (assignment (k.1 ++ indexSuffix i) v) := by
            simp [Link.paramOf, hpart, linkParam?, nonempty?_of_ne hv]
          simp only [List.filterMap_cons, hpart, hparam]
          exact .cons (hassign _ _) hrest
    have hname : l.name <:+ nameParam l.name i count := by
      unfold nameParam
      split
      · exact List.suffix_refl _
      · exact hassign _ _
    rw [List.flatMap_cons, linkParamsFrom, Link.params_eq]
    exact List.rel_append (.cons hname (hparts linkKeys fun _ hk => hk))
      (ih (fun l hl => hvalues l (List.mem_cons_of_mem _ hl)) _ _)

/-- The written parameters end with the value that is said last. -/
theorem getLast?_join_linkParams (hvalues : ∀ l ∈ links, ∀ v ∈ l.values, v ≠ []) (i count : Nat) :
    (Text.join ['|'] (linkParamsFrom i count links)).getLast? =
      (links.flatMap Link.values).getLast?.bind List.getLast? := by
  have hall : ∀ v ∈ links.flatMap Link.values, v ≠ [] := by
    intro v hv
    obtain ⟨l, hl, hv⟩ := List.mem_flatMap.mp hv
    exact hvalues l hl v hv
  generalize links.flatMap Link.values = values, linkParamsFrom i count links = params,
    suffix_linkParamsFrom hvalues i count = hsuffix at *
  clear hvalues
  induction hsuffix with
  | nil => rfl
  | @cons v p values params hp hrest ih =>
    have hv : v ≠ [] := hall v List.mem_cons_self
    cases hrest with
    | nil =>
      obtain ⟨u, rfl⟩ := hp
      simp [Text.join, List.getLast?_append_of_ne_nil _ hv]
    | @cons w q values params hq hrest =>
      rw [join_cons, List.getLast?_append_of_ne_nil _ (by simp), List.getLast?_cons_cons,
        ← ih fun w hw => hall w (List.mem_cons_of_mem _ hw)]
      cases hjoin : Text.join ['|'] (q :: params) with
      | nil =>
        obtain ⟨u, rfl⟩ := hq
        have hw : w ≠ [] := hall w (by simp)
        have hempty := congrArg List.isEmpty hjoin
        cases params <;> simp [Text.join, hw] at hempty
      | cons c r => rw [List.getLast?_cons_cons]

/-- A link whose values all fit into a chain. -/
def Link.Fits (l : Link) : Prop := ∀ v ∈ l.values, IsValue v ∧ fitsChain v = true

/-- **What a chain can hold comes back.**  The parameters that fitting links are written as give
the links again, in their order.  The chain is one mark of its page if and only if the first pair of
closing braces that is seen is its end and no tag stands in it.  For values without a bracket of a
tag that is so if and only if the value that is said last does not end in a brace. -/
theorem written_links_read_back {names : List Text} (hne : links ≠ [])
    (hfits : ∀ l ∈ links, l.Fits) (hnames : isNameOf names (canonicalName chainName) = false) :
    links? (Text.join ['|'] (linkParamsFrom 1 0 links)) = some links ∧
      (ReadsAsOne names (linkParamsFrom 1 0 links) ↔
        Text.indexOf? ['}', '}'] (writeLinks links).veil = some ((writeLinks links).length - 2) ∧
          (Page.ofText (writeLinks links)).refTags = []) ∧
      ((∀ l ∈ links, ∀ v ∈ l.values, '<' ∉ v) →
        (ReadsAsOne names (linkParamsFrom 1 0 links) ↔
          ∀ v ∈ (links.flatMap Link.values).getLast?, v.getLast? ≠ some '}')) := by
  have hpairs : ∀ c ∈ ['{', '}', '[', ']'],
      hasPair c (Text.join ['|'] (linkParamsFrom 1 0 links)) = false := by
    intro c hc
    have hcases : c ≠ '|' ∧ c ≠ '=' ∧ (isAsciiLetter c || isAsciiDigit c) = false := by
      simp only [List.mem_cons, List.not_mem_nil, or_false] at hc
      rcases hc with rfl | rfl | rfl | rfl <;> decide
    refine hasPair_join hcases.1 (forall_mem_linkParamsFrom (fun key v hkey hv => ?_)
      (fun l hl v hv => (fitsChain_iff.mp (hfits l hl v hv).2).2 c hc) 1 0)
    have hno : c ∉ key := fun hmem => ne_of_isKey hkey hmem hcases.2.2 rfl
    rw [assignment, hasPair_append_cons (Ne.symm hcases.2.1), hasPair_eq_false_of_not_mem hno, hv]
    rfl
  have hentries := placedEntries_linkParams hne fun l hl v hv =>
    ⟨(hfits l hl v hv).1, isClosed_of_fitsChain (hfits l hl v hv).2⟩
  refine ⟨?_, readsAsOne_iff (hpairs '{' (by simp)) hnames, fun huntagged => ?_⟩
  · rw [links?_eq, hentries, areLinks_linkEntriesFrom hne, if_pos rfl, entryLinks_linkEntriesFrom]
  · have hparams := forall_mem_linkParamsFrom (P := fun t => '<' ∉ t) (fun key v hkey hv => by
      have hno : '<' ∉ key := fun hmem => ne_of_isKey hkey hmem (by decide) rfl
      simp [assignment, hno, hv]) huntagged 1 0
    have hlast : (Text.join ['|'] (linkParamsFrom 1 0 links)).getLast? = _ :=
      getLast?_join_linkParams (fun l hl v hv => (hfits l hl v hv).1.nonempty) 1 0
    rw [readsAsOne_iff_of_untagged (hpairs '{' (by simp)) (hpairs '}' (by simp))
      (not_mem_join (by decide) hparams) hnames, hlast]
    cases (links.flatMap Link.values).getLast? <;> simp

/-- A name, and a name with a page. -/
theorem written_links_read_back_plain :
    let links : List Link := [⟨"a".toList, none, none, none, none⟩,
      ⟨"b".toList, none, some "7".toList, none, none⟩]
    linkParamsFrom 1 0 links = ["a".toList, "b".toList, "p2=7".toList] ∧
      links? "a|b|p2=7".toList = some links ∧
      ReadsAsOne defaultListNames ["a".toList, "b".toList, "p2=7".toList] := by
  intro links
  have hvalues : ∀ l ∈ links, ∀ v ∈ l.values, v ∈ ["a".toList, "b".toList, "7".toList] := by
    decide
  have hfit : ∀ v ∈ ["a".toList, "b".toList, "7".toList], IsValue v ∧ fitsChain v = true := by
    intro v hv
    simp only [List.mem_cons, List.not_mem_nil, or_false] at hv
    rcases hv with rfl | rfl | rfl <;> exact ⟨⟨by decide, by decide⟩, by decide⟩
  have hnames : isNameOf defaultListNames (canonicalName chainName) = false := by decide
  have hne : links ≠ [] := by simp [links]
  have h := written_links_read_back hne (fun l hl v hv => hfit v (hvalues l hl v hv)) hnames
  exact ⟨by decide, h.1, (h.2.2 (by decide)).mpr (by decide)⟩

/-- **A value that ends in a brace cuts the chain short**: it fits, but its brace makes a pair with
the first one of the end, so that the last brace of the chain stands behind the mark. -/
theorem chain_cut_by_brace :
    let links : List Link := [⟨"a".toList, none, none, none, none⟩,
      ⟨"b\x7d".toList, none, none, none, none⟩]
    writeLinks links = "\x7b\x7br|a|b\x7d\x7d\x7d".toList ∧ (∀ l ∈ links, l.Fits) ∧
      ¬ ReadsAsOne defaultListNames (linkParamsFrom 1 0 links) := by
  intro links
  have hvalues : ∀ l ∈ links, ∀ v ∈ l.values, v ∈ ["a".toList, "b\x7d".toList] := by
    decide
  have hstops : ∀ k ∈ (Page.ofText (writeLinks links)).tokens defaultListNames,
      k.span.stop ≠ (writeLinks links).length := by
    decide +kernel
  refine ⟨by decide, fun l hl v hv => ?_, ?_⟩
  · have hv := hvalues l hl v hv
    simp only [List.mem_cons, List.not_mem_nil, or_false] at hv
    rcases hv with rfl | rfl <;> exact ⟨⟨by decide, by decide⟩, by decide⟩
  · rintro ⟨c, htokens, hspan, -⟩
    refine hstops (.chain c) ?_ ?_
    · change .chain c ∈ (Page.ofText (writeTemplate chainName (linkParamsFrom 1 0 links))).tokens _
      rw [htokens]
      exact List.mem_cons_self
    · rw [Token.span_chain, hspan]
      exact Nat.zero_add _

end Links

end CiteMarkup
