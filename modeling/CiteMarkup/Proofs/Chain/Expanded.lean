import CiteMarkup.Proofs.Chain.Following
import CiteMarkup.Proofs.Chain.Locators
import CiteMarkup.Proofs.Chain.Renumbering
import CiteMarkup.Proofs.Reference.Uses
import CiteMarkup.Proofs.Tag.Written
/-!
# What an expansion cites

A chain that is taken apart cites what it has cited, name by name and in order
(`cites_expansion`), and behind each tag stands a locator with the pages and places of the name
(`HoldsTag`).  This needs names and groups that can be written as attributes, entries that can be
counted anew where names stay in a chain, and an index of its own for each name
(`Chain.IsExpandable`).  Otherwise the two ways to find the group of a name differ: the chain
gives a group to all names with its index, the expansion to the first of them only.
-/

namespace CiteMarkup

/-! ## 1. Holdings of a chain -/

/-- The group among the entries of a name; the first one counts. -/
def ownGroup? (own : List Entry) : Option Text := (own.find? (·.role = .group)).map (·.value)

/-- Name and group that the name of a holding cites. -/
def Holding.cited (x : Holding) : Option Text × Option Text := (some x.1.value, ownGroup? x.2)

section Bind

variable {names entries : List Entry} {x : Holding}

/-- If no two names have one index, each of them gets all entries with its index. -/
theorem bindEntries_eq (h : (names.map (·.index)).Nodup) (entries : List Entry) :
    bindEntries names entries =
      names.map fun n => (n, entries.filter fun e => !e.isName && e.index = n.index) := by
  induction names generalizing entries with
  | nil => rfl
  | cons n names ih =>
    obtain ⟨hnot, hrest⟩ := List.nodup_cons.mp h
    rw [bindEntries, List.map_cons, ih hrest]
    congr 1
    refine List.map_congr_left fun m hm => ?_
    have hne : n.index ≠ m.index := fun heq => hnot (List.mem_map.mpr ⟨m, hm, heq.symm⟩)
    rw [List.filter_filter]
    refine congrArg (Prod.mk m) (List.filter_congr fun e _ => ?_)
    -- an entry with the index of `m` is not one of `n`
    by_cases hindex : e.index = m.index
    · simp [hindex, Ne.symm hne]
    · simp [hindex]

/-- The group of a name is found among its own entries. -/
theorem ownGroup?_filter (entries : List Entry) (i : Nat) :
    ownGroup? (entries.filter fun e => !e.isName && e.index = i) = groupAt? entries i := by
  rw [ownGroup?, groupAt?, List.find?_filter]
  congr 2
  funext e
  by_cases hrole : e.role = .group
  · simp [Entry.isName, hrole]
  · simp [hrole]

namespace Chain

variable {c : Chain}

theorem bound_eq (h : ((c.plainEntries.filter (·.isName)).map (·.index)).Nodup) :
    c.bound = (c.plainEntries.filter (·.isName)).map fun n =>
      (n, c.plainEntries.filter fun e => !e.isName && e.index = n.index) :=
  bindEntries_eq h c.plainEntries

/-- **A chain cites what its holdings cite.** -/
theorem citedBy_eq (h : ((c.plainEntries.filter (·.isName)).map (·.index)).Nodup) :
    citedBy c.plainEntries = c.bound.map Holding.cited := by
  rw [bound_eq h, citedBy, List.map_map]
  refine List.map_congr_left fun n _ => ?_
  exact congrArg (Prod.mk (some n.value)) (ownGroup?_filter c.plainEntries n.index).symm

/-- The holdings of a chain are as they are read. -/
theorem isRead_of_mem_bound (h : ((c.plainEntries.filter (·.isName)).map (·.index)).Nodup)
    (hc : c.entries = placedEntries c.template.paramText) (hx : x ∈ c.bound) : x.IsRead := by
  have hread : ∀ e ∈ c.plainEntries, e.IsRead := fun e he =>
    isRead_of_mem_placedEntries (t := c.template.paramText) (by rwa [← hc])
  rw [bound_eq h] at hx
  obtain ⟨n, hn, rfl⟩ := List.mem_map.mp hx
  obtain ⟨hmem, hname⟩ := List.mem_filter.mp hn
  refine ⟨hname, fun e he => ?_, fun e he => ?_⟩
  · simpa using (List.mem_filter.mp he).2
  · rcases List.mem_cons.mp he with rfl | he
    · exact hread _ hmem
    · exact hread _ (List.mem_filter.mp he).1

end Chain
end Bind

/-! ## 2. Holdings that stay in a chain -/

section Counted

variable {xs : List Holding} {i j : Nat}

theorem citedBy_map_said (entries : List Entry) :
    citedBy (entries.map Entry.said) = citedBy entries := by
  have hgroup : ∀ i, groupAt? (entries.map Entry.said) i = groupAt? entries i := by
    intro i
    rw [groupAt?, groupAt?, List.find?_map, Option.map_map]
    rfl
  rw [citedBy, citedBy, List.filter_map, List.map_map]
  refine List.map_congr_left fun e _ => ?_
  exact congrArg (Prod.mk (some e.value)) (hgroup e.index)

theorem groupAt?_append (es fs : List Entry) (i : Nat) :
    groupAt? (es ++ fs) i = (groupAt? es i).or (groupAt? fs i) :=
  valueAt?_append es fs .group i

/-- A holding at a position says its group there, and nowhere else. -/
theorem groupAt?_saidAt {x : Holding} (hx : x.IsRead) (i j : Nat) :
    groupAt? (x.entries.map (Entry.saidAt i)) j = if j = i then ownGroup? x.2 else none := by
  have hname : x.1.role ≠ .group := by
    rw [of_decide_eq_true hx.name]
    decide
  have hat : ∀ e : Entry, (decide ((e.saidAt i).role = .group) &&
      decide ((e.saidAt i).index = j)) = (decide (e.role = .group) && decide (i = j)) :=
    fun e => rfl
  rw [groupAt?, List.find?_map, Option.map_map, Holding.entries, List.find?_cons_of_neg]
  · split
    · rename_i hij
      subst hij
      simp only [Function.comp_def, hat, decide_true, Bool.and_true]
      rfl
    · rename_i hij
      have hnone : x.2.find? ((fun e => decide (e.role = .group) && decide (e.index = j)) ∘
          Entry.saidAt i) = none := by
        rw [List.find?_eq_none]
        intro e _
        simp [hat, Ne.symm hij]
      rw [hnone]
      rfl
  · simp [hat, hname]

/-- What holdings that are counted anew say about the group of each name. -/
theorem groupAt?_countedFrom (hread : ∀ x ∈ xs, x.IsRead) (i j : Nat) :
    groupAt? (countedFrom i xs) j =
      if j < i then none else (xs[j - i]?).bind fun x => ownGroup? x.2 := by
  induction xs generalizing i with
  | nil => simp [countedFrom, groupAt?]
  | cons x xs ih =>
    rw [countedFrom, groupAt?_append, groupAt?_saidAt (hread x List.mem_cons_self),
      ih fun y hy => hread y (List.mem_cons_of_mem _ hy)]
    rcases Nat.lt_trichotomy j i with hj | rfl | hj
    · rw [if_neg (by omega), if_pos (by omega), if_pos hj, Option.none_or]
    · simp
    · have hsub : j - i = j - (i + 1) + 1 := by omega
      rw [if_neg (by omega), if_neg (by omega), if_neg (by omega), hsub, List.getElem?_cons_succ,
        Option.none_or]

/-- Names that are counted from `i` on cite what their holdings cite, among entries that say
their groups. -/
theorem map_cited_countedFrom {entries : List Entry} (hread : ∀ x ∈ xs, x.IsRead) (i : Nat)
    (h : ∀ n, groupAt? entries (i + n) = (xs[n]?).bind fun x => ownGroup? x.2) :
    ((countedFrom i xs).filter Entry.isName).map
        (fun e => (some e.value, groupAt? entries e.index)) = xs.map Holding.cited := by
  induction xs generalizing i with
  | nil => rfl
  | cons x xs ih =>
    have hx := hread x List.mem_cons_self
    have hown : (x.2.map (Entry.saidAt i)).filter Entry.isName = [] := by
      rw [List.filter_eq_nil_iff]
      intro e' he'
      obtain ⟨e, he, rfl⟩ := List.mem_map.mp he'
      have hname : (e.saidAt i).isName = e.isName := rfl
      simp [hname, (hx.own e he).1]
    have hname : (x.1.saidAt i).isName = true := hx.name
    have hfirst := h 0
    rw [Nat.add_zero, List.getElem?_cons_zero, Option.bind_some] at hfirst
    have hrest := ih (fun y hy => hread y (List.mem_cons_of_mem _ hy)) (i + 1) fun n => by
      rw [Nat.add_right_comm, Nat.add_assoc, h, List.getElem?_cons_succ]
    rw [countedFrom, List.filter_append, Holding.entries, List.map_cons,
      List.filter_cons_of_pos hname, hown, List.singleton_append, List.map_cons, hrest,
      List.map_cons]
    exact congrArg (fun g => (some x.1.value, g) :: xs.map Holding.cited) hfirst

/-- **Holdings that are counted anew cite what they have cited.** -/
theorem citedBy_countedFrom (hread : ∀ x ∈ xs, x.IsRead) :
    citedBy (countedFrom 1 xs) = xs.map Holding.cited :=
  map_cited_countedFrom hread 1 fun n => by
    rw [groupAt?_countedFrom hread, if_neg (by omega), Nat.add_sub_cancel_left]

end Counted

/-! ## 3. What is written for a holding -/

/-- A name that a template can have as a chain of the page. -/
structure IsChainName (name : Text) : Prop where
  canonical : canonicalName name = canonicalName chainName
  trimmed : name.Trimmed

/-- A holding that can stay in a chain of the given name. -/
structure Holding.CanStay (template : Text) (x : Holding) : Prop where
  template : IsTemplateName template
  move : ∀ e ∈ x.entries, e.CanMove

instance (template : Text) (x : Holding) : Decidable (x.CanStay template) :=
  decidable_of_iff ((template.all isNameChar = true ∧ veil ∉ template) ∧
    ∀ e ∈ x.entries, e.CanMove)
    ⟨fun h => ⟨⟨List.all_eq_true.mp h.1.1, h.1.2⟩, h.2⟩,
      fun h => ⟨⟨List.all_eq_true.mpr h.template.all, h.template.visible⟩, h.move⟩⟩

/-- A holding that can become a tag with a locator. -/
structure Holding.CanBeTag (x : Holding) : Prop where
  name : IsAttribute x.1.value
  group : ∀ g ∈ ownGroup? x.2, IsAttribute g
  located : ∀ e ∈ x.2, e.role ∈ locatedRoles → StandsInChain e.value

instance (x : Holding) : Decidable x.CanBeTag :=
  decidable_of_iff (IsAttribute x.1.value ∧ (∀ g ∈ ownGroup? x.2, IsAttribute g) ∧
    ∀ e ∈ x.2, e.role ∈ locatedRoles → StandsInChain e.value)
    ⟨fun h => ⟨h.1, h.2.1, h.2.2⟩, fun h => ⟨h.name, h.group, h.located⟩⟩

/-- A holding that can be written as its entries demand. -/
def Holding.CanBeWritten (template : Text) (x : Holding) : Prop :=
  if isUnconvertible x.2 then x.CanStay template else x.CanBeTag

instance (template : Text) (x : Holding) : Decidable (x.CanBeWritten template) :=
  inferInstanceAs (Decidable (if isUnconvertible x.2 then _ else _))

/-- Behind marks that cite what is listed stands a tag without content for the name of a holding,
and right behind the tag a locator with the pages and places of the name. -/
def HoldsTag (names : List Text) (t : Text) (cited : List (Option Text × Option Text))
    (x : Holding) : Prop :=
  ∃ front tag back, (Page.ofText t).tokens names = front ++ .tag tag :: back ∧
    front.flatMap Token.uses = cited ∧ tag.content = .none ∧ (tag.name?, tag.group?) = x.cited ∧
      ∀ e ∈ x.2, e.role ∈ locatedRoles → ∃ loc, back.head? = some (.locator loc) ∧
        loc.span.start = tag.span.stop ∧
          (Locator.ofText loc.paramText).part e.role = some e.value

section Pieces

variable {names : List Text} {template t u : Text} {x : Holding} {xs : List Holding}

theorem roles_nodup (h : isUnconvertible x.2 = false) : (x.2.map (·.role)).Nodup := by
  rw [isUnconvertible, Bool.or_eq_false_iff] at h
  exact nodup_of_length_eraseDups (by simpa using h.2)

/-- Without two entries of one role there is at most one of each. -/
theorem length_filter_role {own : List Entry} (h : (own.map (·.role)).Nodup) (role : Role) :
    (own.filter fun e => e.role = role).length ≤ 1 := by
  have hsub : ((own.filter fun e => e.role = role).map (·.role)).Sublist (own.map (·.role)) :=
    List.filter_sublist.map _
  have hsame : (own.filter fun e => e.role = role).map (·.role) =
      List.replicate (own.filter fun e => e.role = role).length role := by
    refine List.eq_replicate_iff.mpr ⟨by simp, fun r hr => ?_⟩
    obtain ⟨e, he, rfl⟩ := List.mem_map.mp hr
    simpa using (List.mem_filter.mp he).2
  exact List.nodup_replicate.mp (hsame ▸ h.sublist hsub)

/-- Without two groups the first one is the last one. -/
theorem boundGroup?_eq (h : isUnconvertible x.2 = false) : boundGroup? x.2 = ownGroup? x.2 := by
  have hone := length_filter_role (roles_nodup h) .group
  rw [boundGroup?, ownGroup?, ← List.getLast?_filter, ← List.head?_filter]
  cases hfilter : x.2.filter fun e => e.role = .group with
  | nil => rfl
  | cons e rest =>
    rw [hfilter, List.length_cons] at hone
    obtain rfl : rest = [] := List.length_eq_zero_iff.mp (by omega)
    rfl

/-- **What stays in a chain cites what it has cited.** -/
theorem cites_waiting (hchain : IsChainName template)
    (hnames : isNameOf names (canonicalName chainName) = false) (hread : ∀ x ∈ xs, x.IsRead)
    (hstay : ∀ x ∈ xs, x.CanStay template) (hindex : (xs.map (·.1.index)).Nodup) :
    let w := (writeRenumbered? template (xs.flatMap Holding.entries)).getD []
    SelfContained names w ∧ usesIn names w = xs.map Holding.cited := by
  intro w
  cases xs with
  | nil => exact ⟨.nil, rfl⟩
  | cons x rest =>
    obtain ⟨params, hwritten, hstands, hentries⟩ := writeRenumbered?_holdings template (by simp)
      hread (fun x hx => (hstay x hx).move) hindex
    have hw : w = writeTemplate template params := by simp only [w, hwritten, Option.getD_some]
    have hcite : isNameOf [chainName, locatorName] (canonicalName template) = true := by
      rw [hchain.canonical]
      decide
    obtain ⟨hself, htokens⟩ := selfContained_citeTemplate (hstay x List.mem_cons_self).template
      hcite (hchain.canonical ▸ hnames) (isPlainText_join fun p hp => (hstands p hp).plain)
    have hmark : Token.ofTemplate (writtenInvocation template params) =
        .chain (writtenInvocation template params) := by
      refine if_pos ?_
      rw [Template.canonical, writtenInvocation, hchain.trimmed.trim_eq, hchain.canonical]
    have hcited : citedBy ((placedEntries (Text.join ['|'] params)).map (·.toEntry)) =
        (x :: rest).map Holding.cited := by
      rw [← citedBy_map_said, hentries, citedBy_countedFrom hread]
    rw [hw]
    refine ⟨hself, ?_⟩
    rw [usesIn, htokens, hmark, List.flatMap_singleton]
    exact hcited

/-- **A tag with a locator cites what its holding cites.** -/
theorem cites_tag (hnames : isNameOf names (canonicalName locatorName) = false) (hread : x.IsRead)
    (hconvertible : isUnconvertible x.2 = false) (hcan : x.CanBeTag) :
    let w := citation (some x.1.value) (boundGroup? x.2) false ++ writeLocator x.2
    SelfContained names w ∧ usesIn names w = [x.cited] ∧ HoldsTag names w [] x := by
  intro w
  have hname : ∀ v ∈ some x.1.value, IsAttribute v := fun v hv => by
    obtain rfl := Option.some.inj hv
    exact hcan.name
  have hgroup := hcan.group
  have hcan' : CanBeLocated x.2 :=
    ⟨fun e he hrole => ⟨(hread.read e (List.mem_cons_of_mem _ he)).value, hcan.located e he hrole⟩,
      roles_nodup hconvertible⟩
  have hattributes := areAttributes_reference hname hgroup
  obtain ⟨hvname, hvgroup⟩ := value?_reference hname hgroup
  obtain ⟨htag, htagTokens⟩ : SelfContained names _ ∧ _ :=
    selfContained_writtenEmptyTag hattributes
  obtain ⟨hloc, hlocTokens⟩ := selfContained_writeLocator hcan' hnames
  have hw : w = writtenEmptyTag (referenceAttributes (some x.1.value) (ownGroup? x.2)) ++
      writeLocator x.2 := by
    simp only [w, boundGroup?_eq hconvertible, citation_eq hname hgroup rfl]
  have htokens := htag.tokens_append (writeLocator x.2)
  rw [htagTokens, hlocTokens, List.singleton_append] at htokens
  rw [hw]
  refine ⟨htag.append hloc, ?_, ?_⟩
  · rw [usesIn, htokens, List.flatMap_cons]
    have hlocator : ((if (locatorSegments x.2).isEmpty then [] else
        [Token.locator (writtenInvocation locatorName (locatorSegments x.2))]).map
          (Token.shift (writtenEmptyTag
            (referenceAttributes (some x.1.value) (ownGroup? x.2))).length)).flatMap Token.uses =
        [] := by
      split <;> rfl
    rw [hlocator, List.append_nil]
    exact congrArg (fun c => [c]) (Prod.ext hvname hvgroup)
  · have hne : ∀ e ∈ x.2, e.role ∈ locatedRoles → (locatorSegments x.2).isEmpty = false := by
      intro e he hrole
      obtain ⟨key, hkey⟩ := Option.isSome_iff_exists.mp ((locatorKey?_isSome_iff e).mpr hrole)
      have hs := mem_locatorSegments.mpr ⟨e, he, key, hkey, rfl⟩
      exact List.isEmpty_eq_false_iff.mpr (List.ne_nil_of_mem hs)
    let written := writtenEmptyTag (referenceAttributes (some x.1.value) (ownGroup? x.2))
    refine ⟨[], ⟨Span.ofLength 0 written.length,
      referenceAttributes (some x.1.value) (ownGroup? x.2), .none⟩, _, htokens, rfl, rfl,
      Prod.ext hvname hvgroup, fun e he hrole => ?_⟩
    refine ⟨(writtenInvocation locatorName (locatorSegments x.2)).shift written.length, ?_, ?_,
      part_locator hcan' he hrole⟩
    · rw [hne e he hrole]
      rfl
    · simp only [Template.span_shift, Span.start_shift, Span.stop_ofLength, Nat.zero_add]
      rfl

/-! ## 4. Joined pieces -/

/-- A tag of a text in front. -/
theorem HoldsTag.in_front {cited : List (Option Text × Option Text)} (hu : SelfContained names t)
    (h : HoldsTag names t cited x) (v : Text) : HoldsTag names (t ++ v) cited x := by
  obtain ⟨front, tag, back, htokens, hcited, hcontent, hx, hlocated⟩ := h
  refine ⟨front, tag, back ++ ((Page.ofText v).tokens names).map (Token.shift t.length), ?_,
    hcited, hcontent, hx, fun e he hrole => ?_⟩
  · rw [hu.tokens_append, htokens, List.append_assoc, List.cons_append]
  · obtain ⟨loc, hloc, hplace⟩ := hlocated e he hrole
    exact ⟨loc, by rw [List.head?_append, hloc, Option.some_or], hplace⟩

/-- A tag of a text behind, which all that the text in front cites precedes. -/
theorem HoldsTag.behind {cited : List (Option Text × Option Text)} (hu : SelfContained names u)
    (h : HoldsTag names t cited x) : HoldsTag names (u ++ t) (usesIn names u ++ cited) x := by
  obtain ⟨front, tag, back, htokens, hcited, hcontent, hx, hlocated⟩ := h
  refine ⟨(Page.ofText u).tokens names ++ front.map (Token.shift u.length), tag.shift u.length,
    back.map (Token.shift u.length), ?_, ?_, ?_, hx, fun e he hrole => ?_⟩
  · rw [hu.tokens_append, htokens, List.map_append, List.map_cons, List.append_assoc]
    rfl
  · rw [List.flatMap_append, List.flatMap_map, ← hcited]
    simp only [Token.uses_shift]
    rfl
  · rw [RefTag.shift, hcontent]
  · obtain ⟨loc, hloc, hstart, hpart⟩ := hlocated e he hrole
    refine ⟨loc.shift u.length, ?_, ?_, hpart⟩
    · rw [List.head?_map, hloc]
      rfl
    · rw [Template.span_shift, RefTag.span_shift, Span.start_shift, Span.stop_shift, hstart]

/-- What becomes of a holding whose name stays the same. -/
def Holding.piece (x : Holding) : Piece :=
  if isUnconvertible x.2 then .chained x.entries
  else .text (citation (some x.1.value) (boundGroup? x.2) false ++ writeLocator x.2)

/-- The text written for the holdings `xs`, with others that wait in front of them. -/
def joined (template : Text) (waiting xs : List Holding) : Text :=
  joinPieces template (waiting.flatMap Holding.entries) (xs.map Holding.piece)

/-- The text is read by itself and cites what the holdings cite, those that wait first.  Every name
that does not stay in a chain has its tag, with its locator, where its turn comes. -/
structure CitesAll (names : List Text) (w : Text) (waiting xs : List Holding) : Prop where
  self : SelfContained names w
  uses : usesIn names w = (waiting ++ xs).map Holding.cited
  tags : ∀ l x r, xs = l ++ x :: r → isUnconvertible x.2 = false →
    HoldsTag names w ((waiting ++ l).map Holding.cited) x

section Joined

variable {y : Holding} {waiting : List Holding} {v w : Text}

/-- A name that has to stay in a chain waits with the others. -/
theorem joined_waiting (hu : isUnconvertible y.2 = true) :
    joined template waiting (y :: xs) = joined template (waiting ++ [y]) xs := by
  have hwait : waiting.flatMap Holding.entries ++ y.entries =
      (waiting ++ [y]).flatMap Holding.entries := by simp
  rw [joined, List.map_cons, Holding.piece, if_pos hu, joinPieces, hwait, joined]

/-- A name that becomes a tag stands behind a chain of those that wait. -/
theorem joined_tag (hu : isUnconvertible y.2 = false) :
    joined template waiting (y :: xs) = joined template waiting [] ++
      ((citation (some y.1.value) (boundGroup? y.2) false ++ writeLocator y.2) ++
        joined template [] xs) := by
  rw [joined, List.map_cons, Holding.piece, if_neg (by simp [hu]), joinPieces, List.append_assoc]
  rfl

theorem CitesAll.of_waiting (hu : isUnconvertible y.2 = true)
    (h : CitesAll names w (waiting ++ [y]) xs) : CitesAll names w waiting (y :: xs) := by
  have hall : ∀ zs, waiting ++ y :: zs = (waiting ++ [y]) ++ zs := by simp
  constructor
  case self => exact h.self
  case uses => rw [hall, h.uses]
  case tags =>
    intro l x r heq hconvertible
    rcases List.cons_eq_append_iff.mp heq with ⟨rfl, hhead⟩ | ⟨l, rfl, htail⟩
    · obtain ⟨rfl, -⟩ := List.cons.inj hhead
      rw [hu] at hconvertible
      cases hconvertible
    · rw [hall l]
      exact h.tags l x r htail hconvertible

theorem CitesAll.tag (hfront : SelfContained names u)
    (huses : usesIn names u = waiting.map Holding.cited) (htag : SelfContained names v)
    (htagUses : usesIn names v = [y.cited]) (hholds : HoldsTag names v [] y)
    (h : CitesAll names w [] xs) :
    CitesAll names (u ++ (v ++ w)) waiting (y :: xs) := by
  have hbefore : ∀ l, (waiting ++ l).map Holding.cited =
      waiting.map Holding.cited ++ l.map Holding.cited := fun l => List.map_append
  constructor
  case self => exact hfront.append (htag.append h.self)
  case uses =>
    rw [usesIn_append hfront, usesIn_append htag, huses, htagUses, h.uses, hbefore]
    rfl
  case tags =>
    intro l x r heq hconvertible
    rw [hbefore, ← huses]
    rcases List.cons_eq_append_iff.mp heq with ⟨rfl, hhead⟩ | ⟨l, rfl, htail⟩
    · obtain ⟨rfl, -⟩ := List.cons.inj hhead
      exact (hholds.in_front htag _).behind hfront
    · rw [List.map_cons, ← List.singleton_append, ← htagUses]
      exact ((h.tags l x r htail hconvertible).behind htag).behind hfront

end Joined

/-- **Pieces that are joined cite what their holdings cite.** -/
theorem cites_joined (waiting : List Holding) (hchain : IsChainName template)
    (hchains : isNameOf names (canonicalName chainName) = false)
    (hlocators : isNameOf names (canonicalName locatorName) = false)
    (hread : ∀ x ∈ waiting ++ xs, x.IsRead)
    (hindex : ((waiting ++ xs).map (·.1.index)).Nodup)
    (hstay : ∀ x ∈ waiting, x.CanStay template) (hcan : ∀ x ∈ xs, x.CanBeWritten template) :
    CitesAll names (joined template waiting xs) waiting xs := by
  -- an induction on the holdings to come, whichever wait
  induction xs generalizing waiting with
  | nil =>
    rw [List.append_nil] at hread hindex
    obtain ⟨hself, huses⟩ := cites_waiting hchain hchains hread hstay hindex
    exact ⟨hself, by rw [List.append_nil]; exact huses, fun l x r heq => by simp at heq⟩
  | cons y xs ih =>
    have hy := hcan y List.mem_cons_self
    have hrest := fun x hx => hcan x (List.mem_cons_of_mem y hx)
    rw [Holding.CanBeWritten] at hy
    split at hy
    · rename_i hu
      have hall : waiting ++ y :: xs = (waiting ++ [y]) ++ xs := by simp
      rw [hall] at hread hindex
      rw [joined_waiting hu]
      refine (ih (waiting ++ [y]) hread hindex (fun x hx => ?_) hrest).of_waiting hu
      rcases List.mem_append.mp hx with hx | hx
      · exact hstay x hx
      · exact List.mem_singleton.mp hx ▸ hy
    · rename_i hu
      have hconvertible : isUnconvertible y.2 = false := by simpa using hu
      rw [List.map_append] at hindex
      obtain ⟨hwindex, hyindex, -⟩ := List.nodup_append.mp hindex
      obtain ⟨hfront, hfrontUses⟩ := cites_waiting hchain hchains
        (fun x hx => hread x (List.mem_append_left _ hx)) hstay hwindex
      obtain ⟨htag, htagUses, hholds⟩ := cites_tag hlocators
        (hread y (List.mem_append_right _ List.mem_cons_self)) hconvertible hy
      have hback :=
        ih [] (fun x hx => hread x (List.mem_append_right _ (List.mem_cons_of_mem _ hx)))
        (List.nodup_cons.mp hyindex).2 (fun x hx => absurd hx List.not_mem_nil) hrest
      rw [joined_tag hconvertible]
      exact hback.tag hfront hfrontUses htag htagUses hholds

end Pieces

/-! ## 5. Chains that are taken apart -/

theorem Template.isChainName {p : Page} {names : List Text} {s : Template}
    (h : .chain s ∈ p.tokens names) : IsChainName s.chainName := by
  have hcanonical : s.canonical = canonicalName CiteMarkup.chainName := by
    rcases Page.mem_tokens.mp h with ⟨t, -, ht⟩ | ⟨t, -, ht⟩ | ⟨t, -, ht⟩
    · cases ht
    · cases ht
    · rw [Token.ofTemplate] at ht
      split at ht
      · rename_i heq
        cases ht
        exact heq
      · cases ht
  have htrimmed : s.name.Trimmed := by
    obtain ⟨f, -, rfl⟩ := List.mem_map.mp (List.mem_filter.mp (Page.mem_citeMarks_of_chain h)).1
    exact Text.trimmed_trim _
  by_cases hname : s.name = []
  · rw [Template.canonical, hname] at hcanonical
    exact absurd hcanonical (by decide)
  · rw [Template.chainName, nonempty?_of_ne hname]
    exact ⟨hcanonical, htrimmed⟩

theorem eq_map_of_mapM_ok {α β ε : Type} {f : α → Except ε β} {g : α → β} {l : List α}
    {ys : List β} (h : ∀ x ∈ l, ∀ y, f x = .ok y → y = g x) (hl : l.mapM f = .ok ys) :
    ys = l.map g := by
  induction l generalizing ys with
  | nil =>
    cases hl
    rfl
  | cons x l ih =>
    rw [List.mapM_cons] at hl
    obtain ⟨y, hy, hl⟩ := exists_of_bind_ok hl
    obtain ⟨ys', hys, hl⟩ := exists_of_bind_ok hl
    cases hl
    rw [h x List.mem_cons_self y hy, ih (fun z hz => h z (List.mem_cons_of_mem _ hz)) hys,
      List.map_cons]

namespace Chain

/-- The chain can be taken apart on the page `t`, so that what is written says what the chain has
said. -/
structure IsExpandable (names : List Text) (t : Text) (c : Chain) : Prop where
  /-- The page can be cut around the chain, and no other mark stands in it. -/
  front : SelfContained names (t.take c.template.span.start)
  back : SelfContained names (t.take c.template.span.stop)
  alone : ∀ k ∈ (Page.ofText t).tokens names,
    c.template.span.contains k.span.start = true → k = .chain c.template
  /-- No two names have one index. -/
  indices : ((c.plainEntries.filter (·.isName)).map (·.index)).Nodup
  /-- Every name can be written with its entries. -/
  written : ∀ x ∈ c.bound, Holding.CanBeWritten c.template.chainName x

variable {c : Chain} {names : List Text} {t w : Text} {targets : List Target}

theorem map_fst_bound (c : Chain) : c.bound.map Prod.fst = c.plainEntries.filter (·.isName) := by
  have hall : ∀ names entries : List Entry, (bindEntries names entries).map Prod.fst = names := by
    intro names
    induction names with
    | nil => intro _; rfl
    | cons n names ih => intro entries; rw [bindEntries, List.map_cons, ih]
  exact hall _ _

/-- A name that stays the same becomes the piece of its holding. -/
theorem eq_piece_of_expandName {text : Text} {x : Holding} {target : Target} {piece : Piece}
    (hname : target.name = some x.1.value) (h : expandName text x.1 x.2 target = .ok piece) :
    piece = x.piece := by
  obtain ⟨targetName, body⟩ := target
  obtain rfl : targetName = some x.1.value := hname
  have hvalue : (Text.nonempty? x.1.value).getD x.1.value = x.1.value := by
    by_cases hnil : x.1.value = []
    · rw [hnil]
      rfl
    · rw [nonempty?_of_ne hnil, Option.getD_some]
  rw [Holding.piece]
  split
  · rename_i hu
    simp only [expandName, hu, Option.bind_some, hvalue, if_true, Option.isNone_some,
      Bool.false_eq_true, if_false] at h
    split at h
    · cases h
      rfl
    · cases h
  · rename_i hu
    simp only [expandName, hu] at h
    cases h
    rfl

/-- **A chain whose names stay the same** becomes the pieces of its holdings. -/
theorem expand_eq_joined (hnames : targets.map (·.name) = c.bound.map fun x => some x.1.value)
    (h : c.expand targets = .ok (some w)) :
    w = joined c.template.chainName [] c.bound := by
  cases hunbound : unboundEntry? c.plainEntries with
  | some e =>
    rw [expand_of_unbound hunbound] at h
    cases h
  | none =>
    rw [expand_of_bound targets hunbound] at h
    obtain ⟨pieces, hpieces, h⟩ := exists_of_bind_ok h
    have hw : w = joinPieces c.template.chainName [] pieces := by
      split at h
      · cases h
      · cases h
        rfl
    have hlength : c.bound.length ≤ targets.length := by
      have := congrArg List.length hnames
      rw [List.length_map, List.length_map] at this
      exact Nat.le_of_eq this.symm
    have heach : ∀ x ∈ c.bound.zip targets, ∀ piece, c.pieceOf x = .ok piece →
        piece = Holding.piece x.1 := by
      rintro ⟨x, target⟩ hx piece hpiece
      obtain ⟨i, hi⟩ := List.mem_iff_getElem?.mp hx
      obtain ⟨hxi, hti⟩ := List.getElem?_zip_eq_some.mp hi
      have hname : target.name = some x.1.value := by
        have := congrArg (·[i]?) hnames
        simpa [hxi, hti] using this
      exact eq_piece_of_expandName hname hpiece
    have hfst : (c.bound.zip targets).map (fun x => Holding.piece x.1) =
        ((c.bound.zip targets).map Prod.fst).map Holding.piece := by
      rw [List.map_map]
      rfl
    rw [hw, eq_map_of_mapM_ok heach hpieces, hfst, List.map_fst_zip hlength]
    rfl

section Page

variable (hmark : .chain c.template ∈ (Page.ofText t).tokens names)
  (hentries : c.entries = placedEntries c.template.paramText) (hc : c.IsExpandable names t)
include hmark hc

/-- The text of the chain by itself cites what the chain cites. -/
theorem IsExpandable.usesIn_cut :
    usesIn names (t.cut c.template.span) = (Token.chain c.template).uses := by
  have hle : c.template.span.stop ≤ t.length := (Page.span_of_mem_tokens hmark).2
  have hlt : c.template.span.start < c.template.span.stop := (Page.span_of_mem_tokens hmark).1
  have htokens : ((Page.ofText (t.cut c.template.span)).tokens names).map
      (Token.shift c.template.span.start) = [.chain c.template] := by
    refine Page.eq_of_mem_iff ?_ (List.pairwise_singleton _ _) fun k => ?_
    · refine List.pairwise_map.mpr ((Page.pairwise_lt_tokens _ names).imp fun {k l} hkl => ?_)
      rw [Token.span_shift, Token.span_shift, Span.start_shift, Span.start_shift]
      omega
    · rw [Text.cut, mem_tokens_slice c.template.span.ordered hle hc.front hc.back,
        List.mem_singleton]
      constructor
      · rintro ⟨hk, hstart, hstop⟩
        refine hc.alone k hk ?_
        rw [Span.contains, decide_eq_true hstart, decide_eq_true hstop]
        rfl
      · rintro rfl
        exact ⟨hmark, Nat.le_refl _, hlt⟩
  have huses : usesIn names (t.cut c.template.span) =
      (((Page.ofText (t.cut c.template.span)).tokens names).map
        (Token.shift c.template.span.start)).flatMap Token.uses := by
    rw [usesIn, List.flatMap_map]
    simp only [Token.uses_shift]
  rw [huses, htokens, List.flatMap_singleton]

include hentries

/-- **An expansion cites what the chain has cited**, and every name that becomes a tag has it where
its turn comes, with its locator behind it. -/
theorem IsExpandable.cites_expansion
    (hchains : isNameOf names (canonicalName chainName) = false)
    (hlocators : isNameOf names (canonicalName locatorName) = false)
    (hnames : targets.map (·.name) = c.names.map fun e => some e.value)
    (hexpand : c.expand targets = .ok (some w)) :
    CitesAll names w [] c.bound ∧ usesIn names w = usesIn names (t.cut c.template.span) := by
  have hbound : c.bound.map (fun x => some x.1.value) = c.names.map fun e => some e.value := by
    have hfst := congrArg (List.map fun e => some e.value) (map_fst_bound c)
    rw [List.map_map, plainEntries, List.filter_map, List.map_map] at hfst
    exact hfst
  have hindex : (c.bound.map (·.1.index)).Nodup := by
    have hfst := congrArg (List.map (·.index)) (map_fst_bound c)
    rw [List.map_map] at hfst
    exact hfst ▸ hc.indices
  have hread : ∀ x ∈ [] ++ c.bound, Holding.IsRead x := fun x hx =>
    isRead_of_mem_bound hc.indices hentries hx
  have hcites := cites_joined [] (Template.isChainName hmark) hchains hlocators hread hindex
    (fun x hx => absurd hx List.not_mem_nil) hc.written
  rw [← expand_eq_joined (hnames.trans hbound.symm) hexpand] at hcites
  refine ⟨hcites, ?_⟩
  rw [hcites.uses, hc.usesIn_cut hmark, Token.uses, ← hentries, List.nil_append]
  exact (citedBy_eq hc.indices).symm

end Page
end Chain

end CiteMarkup
