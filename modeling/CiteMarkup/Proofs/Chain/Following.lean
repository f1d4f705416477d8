import CiteMarkup.Proofs.Chain.Edits
import CiteMarkup.Proofs.Chain.Expansion
import CiteMarkup.Proofs.Edit.Apply
import CiteMarkup.Proofs.Text.Value
/-!
# How a chain follows its references

A chain whose references have got other names, or have lost them, is edited so that each of its
names stands for its target (`Chain.Follows`): the new name stands in the place of the old one,
the chain is written anew with it, or the chain is taken apart and the name becomes a tag, a
name of a smaller chain, or a tag with the body of its reference.

A chain that would have to be taken apart can refuse that (`Chain.Refuses`).  It then stays as
it is written, and says so; in all other cases it follows (`Chain.edits_follow`).
-/

namespace CiteMarkup

/-! ## 1. Traversals that succeed or fail -/

section Traversal

variable {α β ε : Type} {f : α → Except ε β}

/-- A traversal succeeds if it does everywhere. -/
theorem mapM_ok_of_forall (related : α → β → Prop) {l : List α}
    (h : ∀ x ∈ l, ∃ y, f x = .ok y ∧ related x y) :
    ∃ ys, l.mapM f = .ok ys ∧ List.Forall₂ related l ys := by
  induction l with
  | nil => exact ⟨[], rfl, .nil⟩
  | cons x l ih =>
    obtain ⟨y, hy, hxy⟩ := h x List.mem_cons_self
    obtain ⟨ys, hys, hall⟩ := ih fun z hz => h z (List.mem_cons_of_mem _ hz)
    refine ⟨y :: ys, ?_, .cons hxy hall⟩
    rw [List.mapM_cons, hy, hys]
    rfl

/-- A traversal fails if it does somewhere. -/
theorem mapM_error_of_mem {l : List α} {x : α} (hx : x ∈ l) {e : ε} (h : f x = .error e) :
    ∃ e', l.mapM f = .error e' := by
  cases hl : l.mapM f with
  | error e' => exact ⟨e', rfl⟩
  | ok ys =>
    obtain ⟨y, -, hy⟩ := exists_of_mapM_ok hl hx
    rw [h] at hy
    cases hy

/-- A traversal fails for a reason that it has found, or it succeeds everywhere. -/
theorem mapM_cases (f : α → Except ε β) (l : List α) :
    (∃ x ∈ l, ∃ e, f x = .error e ∧ l.mapM f = .error e) ∨
      ∃ ys, l.mapM f = .ok ys ∧ List.Forall₂ (fun x y => f x = .ok y) l ys := by
  induction l with
  | nil => exact .inr ⟨[], rfl, .nil⟩
  | cons x l ih =>
    rw [List.mapM_cons]
    cases hx : f x with
    | error e => exact .inl ⟨x, List.mem_cons_self, e, hx, rfl⟩
    | ok y =>
      rcases ih with ⟨z, hz, e, hfz, hl⟩ | ⟨ys, hl, hall⟩
      · exact .inl ⟨z, List.mem_cons_of_mem _ hz, e, hfz, by rw [hl]; rfl⟩
      · exact .inr ⟨y :: ys, by rw [hl]; rfl, .cons hx hall⟩

end Traversal

/-! ## 2. Names and their targets -/

/-- What becomes of a name with its own entries when the chain is taken apart: a tag that cites
the target, the name of the target in a chain, or a tag with the body of the target. -/
inductive Cites (name : Entry) (own : List Entry) : Target → Piece → Prop
  | tag {n : Text} {body : Option Text} : Cites name own ⟨some n, body⟩
      (.text (citation (some n) (boundGroup? own) false ++ writeLocator own))
  | chained {n : Text} {body : Option Text} (fits : fitsChain n = true) :
      Cites name own ⟨some n, body⟩ (.chained ({ name with value := n } :: own))
  | body {b : Text} (visible : b ≠ []) : Cites name own ⟨none, some b⟩
      (.text (fullTag none (boundGroup? own) b false ++ writeLocator own))

/-- A name cannot be made to cite its target: it has to stay in a chain, but the target has no
name that fits there, or the target has neither name nor body. -/
def Rejects (own : List Entry) (target : Target) : Prop :=
  if isUnconvertible own then target.name.any fitsChain = false
  else target.name = none ∧ target.body.bind Text.nonempty? = none

instance (own : List Entry) (target : Target) : Decidable (Rejects own target) := by
  unfold Rejects
  infer_instance

section Name

variable {own : List Entry} {target : Target}

theorem expandName_of_rejects (text : Text) (name : Entry) (hne : target.name ≠ some [])
    (h : Rejects own target) :
    ∃ why, expandName text name own target = .error why := by
  obtain ⟨targetName, body⟩ := target
  unfold Rejects at h
  split at h
  · rename_i hu
    cases targetName with
    | none => exact ⟨.nameless name.value text, by simp [expandName, hu]⟩
    | some n =>
      have hn := nonempty?_of_ne fun hnil => hne (congrArg some hnil)
      have hfits : fitsChain n = false := by simpa using h
      exact ⟨.unfit n text, by simp [expandName, hu, hn, hfits]⟩
  · rename_i hu
    obtain ⟨rfl, hbody⟩ := h
    simp only at hbody
    exact ⟨.nameless name.value text, by simp [expandName, hu, hbody]⟩

theorem expandName_of_not_rejects (text : Text) (name : Entry) (hne : target.name ≠ some [])
    (h : ¬ Rejects own target) :
    ∃ piece, expandName text name own target = .ok piece ∧ Cites name own target piece := by
  obtain ⟨targetName, body⟩ := target
  unfold Rejects at h
  split at h
  · rename_i hu
    cases targetName with
    | none => simp at h
    | some n =>
      have hn := nonempty?_of_ne fun hnil => hne (congrArg some hnil)
      have hfits : fitsChain n = true := by simpa using h
      exact ⟨_, by simp [expandName, hu, hn, hfits], .chained hfits⟩
  · rename_i hu
    cases targetName with
    | some n => exact ⟨_, by simp [expandName, hu], .tag⟩
    | none =>
      cases hbody : body.bind Text.nonempty? with
      | none => exact absurd ⟨rfl, hbody⟩ h
      | some b =>
        obtain ⟨b', rfl, hb⟩ := Option.bind_eq_some_iff.mp hbody
        cases b' with
        | nil => cases hb
        | cons c r =>
          obtain rfl := Option.some.inj hb
          exact ⟨_, by simp [expandName, hu, hbody], .body (List.cons_ne_nil _ _)⟩

end Name

/-! ## 3. Whole chains -/

namespace Chain

variable {c : Chain} {useChains : Option Bool} {targets : List Target}

/-- The names of a chain with their own entries. -/
def bound (c : Chain) : List (Entry × List Entry) :=
  bindEntries (c.plainEntries.filter (·.isName)) c.plainEntries

/-- The chain is to be taken apart, and something in it prevents that: an entry that belongs to
no name, or a name that cannot be made to cite its target. -/
def Refuses (c : Chain) (useChains : Option Bool) (targets : List Target) : Prop :=
  c.isToExpand useChains targets = true ∧
    ((∃ e ∈ c.plainEntries, e.isName = false ∧
        ∀ n ∈ c.plainEntries, n.isName = true → n.index ≠ e.index) ∨
      ∃ x ∈ c.bound.zip targets, Rejects x.1.2 x.2)

/-- The names with what is to stand in their places. -/
def inPlace (c : Chain) (finals : List Text) : List Edit :=
  (c.names.zip finals).map fun (e, n) => ⟨e.span.shift c.template.paramsStart, n⟩

/-- An entry as it is, or a name with another value. -/
def SameButName (e e' : Entry) : Prop :=
  e' = e ∨ e.isName = true ∧ ∃ n, e' = { e with value := n }

/-- A text in the place of the chain in which every name stands for its target. -/
inductive Follows (c : Chain) (page : Text) (targets : List Target) : Text → Prop
  /-- The chain as it is written, with the final names in the places of the names. -/
  | inPlace {finals : List Text} (names : targets.map (·.name) = finals.map some)
      (fit : ∀ n ∈ finals, fitsChain n = true) : Follows c page targets
        (Edit.spliced page c.template.span.stop c.template.span.start (c.inPlace finals))
  /-- The chain written anew, its entries with the final names. -/
  | anew {finals : List Text} {entries : List Entry}
      (names : targets.map (·.name) = finals.map some)
      (fit : ∀ n ∈ finals, fitsChain n = true)
      (values : (entries.filter (·.isName)).map (·.value) = finals)
      (others : List.Forall₂ SameButName c.plainEntries entries) : Follows c page targets
        (writeTemplate c.template.chainName
          (chainParamsFrom (·.index) (fun _ key => key) 0 entries))
  /-- One piece for each name. -/
  | expanded {pieces : List Piece}
      (cites : List.Forall₂ (fun x piece => Cites x.1.1 x.1.2 x.2 piece)
        (c.bound.zip targets) pieces) : Follows c page targets
        (joinPieces c.template.chainName [] pieces)

/-! ## 4. Chains that are taken apart -/

theorem unboundEntry?_isSome_iff (entries : List Entry) :
    ( unboundEntry? entries).isSome ↔ ∃ e ∈ entries, e.isName = false ∧
      ∀ n ∈ entries, n.isName = true → n.index ≠ e.index := by
  rw [ unboundEntry?, List.find?_isSome]
  simp

theorem length_bound (c : Chain) : c.bound.length = c.names.length := by
  rw [bound, length_bindEntries, names, plainEntries, List.filter_map, List.length_map]
  rfl

/-- What becomes of a name, as one function of the name, its entries and its target. -/
def pieceOf (c : Chain) (x : (Entry × List Entry) × Target) : Except Abstention Piece :=
  expandName c.template.written x.1.1 x.1.2 x.2

theorem expand_of_unbound {e : Entry} (h : unboundEntry? c.plainEntries = some e) :
    c.expand targets = .error (.unbound (e.key.getD []) e.value c.template.written) := by
  simp only [expand, h]

theorem expand_of_bound (targets : List Target) (h : unboundEntry? c.plainEntries = none) :
    c.expand targets = (c.bound.zip targets).mapM c.pieceOf >>= fun pieces =>
      .ok (if pieces.isEmpty then none
        else some (joinPieces c.template.chainName [] pieces)) := by
  simp only [expand, h]
  rfl

/-- A chain that refuses stays, and one that does not is replaced by what follows its
references. -/
theorem expand_cases (hadmits : c.admits targets = true)
    (hne : ∀ target ∈ targets, target.name ≠ some []) (page : Text)
    (hexpand : c.isToExpand useChains targets = true) :
    (c.Refuses useChains targets ∧ ∃ why, c.expand targets = .error why) ∨
      (¬ c.Refuses useChains targets ∧
        ∃ w, c.expand targets = .ok (some w) ∧ c.Follows page targets w) := by
  cases hunbound : unboundEntry? c.plainEntries with
  | some e =>
    refine .inl ⟨⟨hexpand, .inl ?_⟩, _, expand_of_unbound hunbound⟩
    rw [← unboundEntry?_isSome_iff, hunbound]
    rfl
  | none =>
    have hfold := expand_of_bound targets hunbound
    by_cases hrejects : ∃ x ∈ c.bound.zip targets, Rejects x.1.2 x.2
    · obtain ⟨x, hx, hrej⟩ := hrejects
      refine .inl ⟨⟨hexpand, .inr ⟨x, hx, hrej⟩⟩, ?_⟩
      obtain ⟨why, hwhy⟩ := expandName_of_rejects c.template.written x.1.1
        (hne x.2 (List.of_mem_zip hx).2) hrej
      obtain ⟨why', hwhy'⟩ := mapM_error_of_mem (f := c.pieceOf) hx hwhy
      rw [hfold, hwhy']
      exact ⟨why', rfl⟩
    · refine .inr ⟨?_, ?_⟩
      · rintro ⟨-, hloose | hrej⟩
        · rw [← unboundEntry?_isSome_iff, hunbound] at hloose
          cases hloose
        · exact hrejects hrej
      · obtain ⟨pieces, hpieces, hall⟩ := mapM_ok_of_forall
          (f := c.pieceOf) (fun x piece => Cites x.1.1 x.1.2 x.2 piece) (l := c.bound.zip targets)
          fun x hx => expandName_of_not_rejects c.template.written x.1.1
            (hne x.2 (List.of_mem_zip hx).2) fun hrej => hrejects ⟨x, hx, hrej⟩
        have hnonempty : pieces.isEmpty = false := by
          have hlength := hall.length_eq
          have hnames : c.names ≠ [] := by
            rw [isToExpand, Bool.and_eq_true] at hexpand
            simpa using hexpand.1
          have hpos := List.length_pos_iff.mpr hnames
          have hadmits : targets.length = c.names.length := of_decide_eq_true hadmits
          rw [List.length_zip, length_bound, hadmits, Nat.min_self] at hlength
          cases pieces with
          | nil =>
            rw [List.length_nil] at hlength
            omega
          | cons piece pieces => rfl
        refine ⟨joinPieces c.template.chainName [] pieces, ?_, .expanded hall⟩
        rw [hfold, hpieces]
        simp [bind, Except.bind, hnonempty]

/-! ## 5. Chains that stay one -/

/-- Names that are all there make up a list. -/
theorem exists_names {holds : Text → Prop}
    (h : ∀ target ∈ targets, ∃ n, target.name = some n ∧ holds n) :
    ∃ finals : List Text, targets.map (·.name) = finals.map some ∧ ∀ n ∈ finals, holds n := by
  induction targets with
  | nil => exact ⟨[], rfl, by simp⟩
  | cons target targets ih =>
    obtain ⟨n, hn, hfirst⟩ := h target List.mem_cons_self
    obtain ⟨finals, hfinals, hall⟩ := ih fun t ht => h t (List.mem_cons_of_mem _ ht)
    refine ⟨n :: finals, by simp [hn, hfinals], fun m hm => ?_⟩
    rcases List.mem_cons.mp hm with rfl | hm
    · exact hfirst
    · exact hall m hm

/-- A chain that is not to be taken apart has a final name that fits for each name. -/
theorem exists_finals (hadmits : c.admits targets = true)
    (hexpand : c.isToExpand useChains targets = false) :
    ∃ finals : List Text, targets.map (·.name) = finals.map some ∧
      ∀ n ∈ finals, fitsChain n = true := by
  refine exists_names fun target ht => ?_
  rw [isToExpand, Bool.and_eq_false_iff] at hexpand
  rcases hexpand with hnames | hmust
  · have hadmits : targets.length = c.names.length := of_decide_eq_true hadmits
    have hnil : c.names = [] := by simpa using hnames
    rw [hnil, List.length_nil, List.length_eq_zero_iff] at hadmits
    rw [hadmits] at ht
    cases ht
  · rw [mustExpand, Bool.or_eq_false_iff, List.any_eq_false] at hmust
    have hany : target.name.any fitsChain = true := by simpa using hmust.2 target ht
    cases hname : target.name with
    | none =>
      rw [hname] at hany
      cases hany
    | some n =>
      rw [hname] at hany
      exact ⟨n, rfl, hany⟩

/-- Entries take the names of their targets. -/
theorem values_withNames {entries : List Entry} {finals : List Text}
    (hnames : targets.map (·.name) = finals.map some)
    (hlength : targets.length = (entries.filter (·.isName)).length) :
    ((withNames entries targets).filter (·.isName)).map (·.value) = finals ∧
      List.Forall₂ SameButName entries (withNames entries targets) := by
  induction entries generalizing targets finals with
  | nil =>
    have htargets : targets = [] := by simpa using hlength
    rw [htargets] at hnames
    have hfinals : finals = [] := by simpa using hnames.symm
    rw [hfinals]
    exact ⟨rfl, .nil⟩
  | cons e entries ih =>
    cases he : e.isName with
    | true =>
      rw [List.filter_cons_of_pos he, List.length_cons] at hlength
      cases targets with
      | nil => cases hlength
      | cons target targets =>
        cases finals with
        | nil => cases hnames
        | cons n finals =>
          simp only [List.map_cons, List.cons.injEq] at hnames
          obtain ⟨hvalues, hall⟩ := ih hnames.2 (by simpa using hlength)
          have hrole : ({ e with value := n } : Entry).isName = true := he
          simp only [withNames, he, if_true, hnames.1, Option.getD_some]
          refine ⟨?_, .cons (.inr ⟨he, n, rfl⟩) hall⟩
          rw [List.filter_cons_of_pos hrole, List.map_cons, hvalues]
    | false =>
      rw [List.filter_cons_of_neg (by simp [he])] at hlength
      obtain ⟨hvalues, hall⟩ := ih hnames hlength
      simp only [withNames, he, Bool.false_eq_true, if_false]
      refine ⟨?_, .cons (.inl rfl) hall⟩
      rw [List.filter_cons_of_neg (by simp [he]), hvalues]

/-- There is a target for each name. -/
theorem length_targets (hadmits : c.admits targets = true) :
    targets.length = (c.plainEntries.filter Entry.isName).length := by
  have hadmits : targets.length = c.names.length := of_decide_eq_true hadmits
  rw [hadmits, names, plainEntries, List.filter_map, List.length_map]
  rfl

/-- A chain with a name has one with the names of its targets. -/
theorem any_withNames {finals : List Text} (hadmits : c.admits targets = true)
    (hnames : targets.map (·.name) = finals.map some) (hne : c.names ≠ []) :
    (withNames c.plainEntries targets).any Entry.isName = true := by
  have hfinals : targets.length = finals.length := by simpa using congrArg List.length hnames
  have hvalues := congrArg List.length (values_withNames hnames (length_targets hadmits)).1
  have hadmits : targets.length = c.names.length := of_decide_eq_true hadmits
  have hpos := List.length_pos_iff.mpr hne
  rw [List.length_map, ← hfinals, hadmits] at hvalues
  obtain ⟨e, he⟩ := List.exists_mem_of_length_pos (hvalues ▸ hpos)
  obtain ⟨hmem, hname⟩ := List.mem_filter.mp he
  exact List.any_eq_true.mpr ⟨e, hmem, hname⟩

/-- The edits in place are those that put in another name: the others change nothing. -/
theorem filter_renamed {page : Text} {offset : Nat} {names : List PlacedEntry}
    {finals : List Text} (hcut : ∀ e ∈ names, page.cut (e.span.shift offset) = e.value)
    (hnames : targets.map (·.name) = finals.map some) :
    ((((names.zip targets).filterMap fun (e, t) => match t.name with
        | some n => if n ≠ e.value then some (e, n) else none
        | none => none).map fun (e, n) => (⟨e.span.shift offset, n⟩ : Edit)).filter
          fun e => page.cut e.span ≠ e.text) =
      (((names.zip finals).map fun (e, n) => (⟨e.span.shift offset, n⟩ : Edit)).filter
        fun e => page.cut e.span ≠ e.text) := by
  induction names generalizing targets finals with
  | nil => rfl
  | cons e names ih =>
    cases targets with
    | nil =>
      have hfinals : finals = [] := by simpa using hnames.symm
      rw [hfinals]
      rfl
    | cons target targets =>
      cases finals with
      | nil => cases hnames
      | cons n finals =>
        simp only [List.map_cons, List.cons.injEq] at hnames
        have hrest := ih (fun e he => hcut e (List.mem_cons_of_mem _ he)) hnames.2
        have hfirst := hcut e List.mem_cons_self
        by_cases hn : n = e.value
        · simpa [hnames.1, hn, hfirst] using hrest
        · simpa [hnames.1, hn, hfirst, Ne.symm hn] using hrest

section Page

variable {p : Page} (hc : c.entries = placedEntries c.template.paramText)
  (hi : p.IsInvocation c.template)
include hc hi

/-- A name stands in its place on the page. -/
theorem cut_name {e : PlacedEntry} (he : e ∈ c.names) :
    p.raw.cut (e.span.shift c.template.paramsStart) = e.value := by
  have hmem := (List.mem_filter.mp he).1
  rw [hc] at hmem
  have hcut := cut_of_mem_placedEntries hmem
  have hbounds := bounds_of_mem_placedEntries hmem
  have := hi.stop_eq
  rw [hi.paramText_eq, Text.cut, Text.slice_slice _ (by omega)] at hcut
  exact hcut

/-- The names of a chain stand one behind the other in it. -/
theorem between_inPlace {finals : List Text} (hlength : c.names.length ≤ finals.length) :
    Edit.Between c.template.span.start c.template.span.stop (c.inPlace finals) := by
  have hpair : c.names.Pairwise fun a b => a.span.stop ≤ b.span.start := by
    have hentries : c.entries.Pairwise fun a b => a.span.stop ≤ b.span.start := by
      rw [hc]
      exact (pairwise_placedEntries _).imp Nat.le_of_lt
    exact hentries.filter _
  have hroom := hi.room
  have hstop := hi.stop_eq
  refine Edit.between_of_pairwise c.template.span.ordered ?_ ?_
  · refine List.pairwise_map.mpr ?_
    have hfst : ((c.names.zip finals).map Prod.fst).Pairwise fun a b =>
        a.span.stop ≤ b.span.start := by
      rwa [List.map_fst_zip hlength]
    refine (List.pairwise_map.mp hfst).imp fun hab => ?_
    simp only [Span.stop_shift, Span.start_shift]
    omega
  · intro edit hedit
    obtain ⟨⟨e, n⟩, hmem, rfl⟩ := List.mem_map.mp hedit
    have he := (List.mem_filter.mp (List.of_mem_zip hmem).1).1
    rw [hc] at he
    have hbounds := bounds_of_mem_placedEntries he
    simp only [Span.stop_shift, Span.start_shift]
    omega

end Page

/-- **A chain follows its references, or refuses to be taken apart and stays.** -/
theorem edits_follow {p : Page} (c : Chain) (useChains : Option Bool)
    (hc : c.entries = placedEntries c.template.paramText) (hi : p.IsInvocation c.template)
    (hadmits : c.admits targets = true)
    (hne : ∀ target ∈ targets, target.name ≠ some []) :
    (c.Refuses useChains targets ∧ ∃ why, c.edits useChains targets = ([], [.kept why])) ∨
      (¬ c.Refuses useChains targets ∧ (c.edits useChains targets).2 = [] ∧
        c.Follows p.raw targets (Edit.spliced p.raw c.template.span.stop c.template.span.start
          ((c.edits useChains targets).1.filter fun e => p.raw.cut e.span ≠ e.text))) := by
  have whole : ∀ w : Text, Edit.spliced p.raw c.template.span.stop c.template.span.start
      ([(⟨c.template.span, w⟩ : Edit)].filter fun e => p.raw.cut e.span ≠ e.text) = w := by
    intro w
    have hbetween : Edit.Between c.template.span.start c.template.span.stop
        [⟨c.template.span, w⟩] := ⟨Nat.le_refl _, Nat.le_refl _⟩
    rw [(Edit.spliced_filter hbetween _ fun e _ hkeep => by simpa using hkeep).2, Edit.spliced,
      Edit.spliced, Text.slice_self, Text.slice_self]
    simp
  cases hexpand : c.isToExpand useChains targets with
  | true =>
    rcases expand_cases hadmits hne p.raw hexpand with ⟨hrefuses, why, hwhy⟩ |
      ⟨hnot, w, hw, hfollows⟩
    · exact .inl ⟨hrefuses, why, by rw [edits, if_pos hexpand, hwhy]⟩
    · refine .inr ⟨hnot, ?_⟩
      rw [edits, if_pos hexpand, hw]
      exact ⟨rfl, by rw [whole]; exact hfollows⟩
  | false =>
    obtain ⟨finals, hnames, hfit⟩ := exists_finals hadmits hexpand
    have hlength : targets.length = c.names.length := of_decide_eq_true hadmits
    have hfinals : targets.length = finals.length := by
      simpa using congrArg List.length hnames
    refine .inr ⟨fun hrefuses => by simp [hrefuses.1] at hexpand, ?_⟩
    rw [edits, if_neg (by simp [hexpand])]
    refine ⟨rfl, ?_⟩
    unfold renamingEdits
    simp only
    split
    · rename_i hchanged
      obtain ⟨hvalues, hall⟩ := values_withNames hnames (length_targets hadmits)
      -- a name has changed, so there is one
      obtain ⟨⟨e, n⟩, hmem, -⟩ := List.any_eq_true.mp hchanged
      obtain ⟨x, hx, -⟩ := List.mem_filterMap.mp hmem
      have hany := any_withNames hadmits hnames
        (List.ne_nil_of_mem (List.of_mem_zip hx).1)
      rw [writeChain?, if_pos hany, Option.toList_some, List.map_singleton, whole]
      exact .anew hnames hfit hvalues hall
    · have hfilter := filter_renamed (fun e he => cut_name hc hi he) hnames
      have hbetween : Edit.Between c.template.span.start c.template.span.stop (c.inPlace finals) :=
        between_inPlace hc hi (by omega)
      have hspliced := (Edit.spliced_filter hbetween
        (fun e => p.raw.cut e.span ≠ e.text) fun e _ hkeep => by simpa using hkeep).2
      have heq : ((renamedNames c targets).map fun (e, n) =>
          (⟨e.span.shift c.template.paramsStart, n⟩ : Edit)).filter
            (fun e => p.raw.cut e.span ≠ e.text) =
          (c.inPlace finals).filter fun e => p.raw.cut e.span ≠ e.text := hfilter
      rw [heq, hspliced]
      exact .inPlace hnames hfit

end Chain
end CiteMarkup
