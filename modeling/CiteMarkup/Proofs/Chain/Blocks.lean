import CiteMarkup.Proofs.Chain.Bindings
import CiteMarkup.Proofs.Chain.Expanded
import CiteMarkup.Proofs.Chain.Renaming
/-!
# Blocks of an expansion

A chain is taken apart as a whole, or it stays as it is for a reason that is given
(`Chain.Hinders`).  Taken apart, it is a row of blocks: a name becomes a tag with a locator behind
it, and neighbours that a tag cannot hold stay together in one chain (`AreBlocks`).  Every name is
in one block, and what belongs to it goes with it: each other parameter is bound to the first name
with its index (`AreBound`), and is written in the block of that name (`Block.Writes`).

Two things can be lost all the same.  A chain that is written anew is read as what has been written
only if that is clear (`AreClear`, `saysAll_iff`): a bracket that was open at the end of the chain
hides what has come to stand behind it (`name_hidden_by_bracket`).  And a target whose name is empty
gets a tag without attributes, so the group of the name is gone (`group_lost_by_empty_name`).

The main result is `expand_blocks`.
-/

namespace CiteMarkup

/-! ## 1. What is bound to a name -/

/-- Names with what is bound to them: each entry that is no name is bound to the first name with its
index, and to no other. -/
structure AreBound (entries : List Entry) (bound : List Holding) : Prop where
  names : bound.map (·.1) = entries.filter Entry.isName
  first : ∀ front x back, bound = front ++ x :: back →
    x.2 = if front.any (fun y => y.1.index = x.1.index) then []
      else entries.filter fun e => !e.isName && e.index = x.1.index
  all : (bound.flatMap (·.2)).Perm (entries.filter fun e => !e.isName)

section Bound

variable {names entries : List Entry} {x : Holding}

/-- A name gets the entries with its index, unless a name in front of it has it too. -/
theorem first_bindEntries {front back : List Holding}
    (h : bindEntries names entries = front ++ x :: back) :
    x.2 = if front.any (fun y => y.1.index = x.1.index) then []
      else entries.filter fun e => !e.isName && e.index = x.1.index := by
  induction names generalizing entries front with
  | nil => simp [bindEntries] at h
  | cons n names ih =>
    rw [bindEntries] at h
    cases front with
    | nil =>
      obtain ⟨rfl, -⟩ := List.cons.inj h
      rfl
    | cons y front =>
      obtain ⟨rfl, hrest⟩ := List.cons.inj h
      rw [ih hrest, List.any_cons, List.filter_filter]
      by_cases hindex : n.index = x.1.index
      · -- the entries have been taken by `n`
        have htaken : (entries.filter fun e => (!e.isName && decide (e.index = x.1.index)) &&
            (e.isName || decide (e.index ≠ n.index))) = [] := by
          rw [List.filter_eq_nil_iff]
          intro e _
          cases hname : e.isName <;> simp [hindex]
        rw [htaken, ite_self, decide_eq_true hindex, Bool.true_or, if_pos rfl]
      · have hkept : (entries.filter fun e => (!e.isName && decide (e.index = x.1.index)) &&
            (e.isName || decide (e.index ≠ n.index))) =
            entries.filter fun e => !e.isName && decide (e.index = x.1.index) := by
          refine List.filter_congr fun e _ => ?_
          by_cases hx : e.index = x.1.index
          · simp [hx, Ne.symm hindex]
          · simp [hx]
        simp only [hindex, decide_false, Bool.false_or, hkept]

/-- If each entry has a name with its index, then all of them are bound, and each once. -/
theorem perm_bindEntries
    (h : ∀ e ∈ entries, e.isName = false → ∃ n ∈ names, n.index = e.index) :
    ((bindEntries names entries).flatMap (·.2)).Perm (entries.filter fun e => !e.isName) := by
  induction names generalizing entries with
  | nil =>
    have hnone : (entries.filter fun e => !e.isName) = [] := by
      rw [List.filter_eq_nil_iff]
      intro e he
      have := h e he
      simpa using this
    rw [hnone]
    exact .nil
  | cons n names ih =>
    have hothers : ∀ e ∈ entries.filter fun e => e.isName || e.index ≠ n.index,
        e.isName = false → ∃ m ∈ names, m.index = e.index := by
      intro e he hname
      obtain ⟨hmem, hother⟩ := List.mem_filter.mp he
      obtain ⟨m, hm, hindex⟩ := h e hmem hname
      rcases List.mem_cons.mp hm with rfl | hm
      · simp [hname, hindex] at hother
      · exact ⟨m, hm, hindex⟩
    have hrest := ih hothers
    -- the entries are those of `n` and those that are left
    have hsplit := List.filter_append_perm (fun e : Entry => decide (e.index = n.index))
      (entries.filter fun e => !e.isName)
    have hown : (entries.filter fun e => !e.isName && decide (e.index = n.index)) =
        (entries.filter fun e => !e.isName).filter fun e => decide (e.index = n.index) := by
      rw [List.filter_filter]
      exact List.filter_congr fun e _ => Bool.and_comm _ _
    have hleft : ((entries.filter fun e => e.isName || e.index ≠ n.index).filter
          fun e => !e.isName) =
        (entries.filter fun e => !e.isName).filter fun e => !decide (e.index = n.index) := by
      rw [List.filter_filter, List.filter_filter]
      refine List.filter_congr fun e _ => ?_
      cases e.isName <;> simp
    rw [bindEntries, List.flatMap_cons, hown]
    rw [hleft] at hrest
    exact (hrest.append_left _).trans hsplit

end Bound

namespace Chain

variable {c : Chain} {x : Holding}

/-- **What belongs to a name is bound to it**, in a chain without loose entries. -/
theorem areBound (h : unboundEntry? c.plainEntries = none) : AreBound c.plainEntries c.bound := by
  refine ⟨map_fst_bound c, fun front x back heq => first_bindEntries heq, perm_bindEntries ?_⟩
  intro e he hname
  by_contra hloose
  have hsome : ( unboundEntry? c.plainEntries).isSome := by
    refine (unboundEntry?_isSome_iff _).mpr ⟨e, he, hname, fun n hn hnname hindex => ?_⟩
    exact hloose ⟨n, List.mem_filter.mpr ⟨hn, hnname⟩, hindex⟩
  rw [h] at hsome
  cases hsome

/-- What is bound to a name is an entry of the chain. -/
theorem mem_of_mem_bound (hx : x ∈ c.bound) : x.IsOwned ∧ ∀ e ∈ x.2, e ∈ c.plainEntries := by
  have hname : x.1 ∈ c.plainEntries.filter (·.isName) := map_fst_bound c ▸ List.mem_map_of_mem hx
  obtain ⟨front, back, heq⟩ := List.append_of_mem hx
  have hown : ∀ e ∈ x.2, e ∈ c.plainEntries ∧ e.isName = false ∧ e.index = x.1.index := by
    intro e he
    rw [first_bindEntries heq] at he
    split at he
    · cases he
    · simpa using he
  exact ⟨⟨(List.mem_filter.mp hname).2, fun e he => (hown e he).2⟩, fun e he => (hown e he).1⟩

/-- Nothing is bound to a name if one in front of it has its index. -/
theorem pairwise_bound (c : Chain) :
    c.bound.Pairwise fun x y => x.1.index = y.1.index → y.2 = [] := by
  rw [List.pairwise_iff_getElem]
  intro i j hi hj hij hindex
  have hsplit : c.bound = c.bound.take j ++ c.bound[j] :: c.bound.drop (j + 1) := by
    rw [List.getElem_cons_drop, List.take_append_drop]
  rw [first_bindEntries hsplit, if_pos]
  exact List.any_eq_true.mpr
    ⟨c.bound[i], List.mem_take_iff_getElem.mpr ⟨i, by omega, rfl⟩, decide_eq_true hindex⟩

end Chain

/-! ## 2. Names and what becomes of them -/

/-- A name of a chain with what is bound to it, and the target that it stands for. -/
abbrev Share := Holding × Target

namespace Share

/-- The name stays in a chain: a tag with a locator cannot hold what is bound to it. -/
def stays (x : Share) : Bool := isUnconvertible x.1.2

/-- The name from now on: the one of the target, or if that has none, the name as it was. -/
def finalName (x : Share) : Text := (x.2.name.bind Text.nonempty?).getD x.1.1.value

/-- The holding under its final name. -/
def renamed (x : Share) : Holding := ({ x.1.1 with value := x.finalName }, x.1.2)

/-- Why a name prevents the chain from being taken apart: there is nothing to write for it, or it
has to stay in a chain and does not fit there. -/
inductive Hinders (chainText : Text) (x : Share) : Abstention → Prop
  | nameless (lost : x.2.name = none)
        (bare : x.stays = true ∨ x.2.body.bind Text.nonempty? = none) :
    Hinders chainText x (.nameless x.1.1.value chainText)
  | unfit (stays : x.stays = true) (unfit : fitsChain x.finalName = false) :
    Hinders chainText x (.unfit x.finalName chainText)

end Share

/-- The tag that stands for a target, with a group: it cites the name of the target or holds its
body.  For an empty name it says nothing. -/
inductive Target.IsTag (group : Option Text) : Target → Text → Prop
  | cites {n : Text} {body : Option Text} (named : n ≠ []) :
    IsTag group ⟨some n, body⟩ (tagHead (some n) group ++ " />".toList)
  | blank {body : Option Text} : IsTag group ⟨some [], body⟩ "<ref />".toList
  | body {b : Text} (visible : b ≠ []) : IsTag group ⟨none, some b⟩ (fullTag none group b false)

/-- What becomes of a name that does not prevent the chain from being taken apart. -/
inductive Share.Becomes (x : Share) : Piece → Prop
  | tag {t : Text} (goes : x.stays = false) (isTag : x.2.IsTag (boundGroup? x.1.2) t) :
    Becomes x (.text (t ++ writeLocator x.1.2))
  | chained (stays : x.stays = true) (fits : fitsChain x.finalName = true) :
    Becomes x (.chained x.renamed.entries)

theorem Target.isTag_citation (n : Text) (body group : Option Text) :
    Target.IsTag group ⟨some n, body⟩ (citation (some n) group false) := by
  by_cases hn : n = []
  · subst hn
    exact .blank
  · have hcited : citation (some n) group false = tagHead (some n) group ++ " />".toList := by
      simp [citation, nonempty?_of_ne hn]
    exact hcited ▸ .cites hn

/-- **A name prevents the chain from being taken apart, for the reason that is given, or it becomes
a tag or stays in a chain.** -/
theorem expandName_cases (chainText : Text) (x : Share) :
    (∃ why, expandName chainText x.1.1 x.1.2 x.2 = .error why ∧ x.Hinders chainText why) ∨
      (∀ why, ¬ x.Hinders chainText why) ∧
        ∃ piece, expandName chainText x.1.1 x.1.2 x.2 = .ok piece ∧ x.Becomes piece := by
  obtain ⟨⟨n, own⟩, name, body⟩ := x
  cases hstays : isUnconvertible own with
  | true =>
    cases name with
    | none =>
      exact .inl ⟨.nameless n.value chainText, by simp [expandName, hstays],
        .nameless rfl (.inl hstays)⟩
    | some m =>
      cases hfits : fitsChain ((Text.nonempty? m).getD n.value) with
      | false =>
        exact .inl ⟨.unfit _ chainText, by simp [expandName, hstays, hfits, Share.finalName],
          .unfit hstays hfits⟩
      | true =>
        have hchained : expandName chainText n own ⟨some m, body⟩ =
            .ok (.chained (Share.renamed ((n, own), ⟨some m, body⟩)).entries) := by
          simp [expandName, hstays, hfits]
          rfl
        refine .inr ⟨?_, _, hchained, .chained hstays hfits⟩
        rintro why (⟨hname, -⟩ | ⟨-, hunfit⟩)
        · cases hname
        · exact absurd (hunfit.symm.trans hfits) (by decide)
  | false =>
    have hgoes : ∀ target, ¬ Share.stays ((n, own), target) = true := fun _ => by
      simp [Share.stays, hstays]
    cases name with
    | some m =>
      refine .inr ⟨?_, _, by simp [expandName, hstays],
        .tag hstays (Target.isTag_citation m body (boundGroup? own))⟩
      rintro why (⟨hname, -⟩ | ⟨hstay, -⟩)
      · cases hname
      · exact hgoes _ hstay
    | none =>
      cases hbody : body.bind Text.nonempty? with
      | none =>
        exact .inl ⟨.nameless n.value chainText, by simp [expandName, hstays, hbody],
          .nameless rfl (.inr hbody)⟩
      | some b =>
        obtain ⟨b', rfl, hb⟩ := Option.bind_eq_some_iff.mp hbody
        obtain rfl := eq_of_nonempty? hb
        have hvisible : b' ≠ [] := by
          rintro rfl
          cases hb
        refine .inr ⟨?_, _, by simp [expandName, hstays, hbody], .tag hstays (.body hvisible)⟩
        rintro why (⟨-, hbare⟩ | ⟨hstay, -⟩)
        · rcases hbare with hstay | hnone
          · exact hgoes _ hstay
          · exact absurd (hnone.symm.trans hbody) (by simp)
        · exact hgoes _ hstay

/-! ## 3. What a block holds -/

/-- What is bound to a name that becomes a tag: at most one group, which the tag holds, and at most
one each of page, pages and place, which the locator holds in this order. -/
structure Divides (own grouped located : List Entry) : Prop where
  all : own.Perm (grouped ++ located)
  group : ∀ e ∈ grouped, e.role = .group
  one : grouped.length ≤ 1
  order : (located.map (·.role)).Sublist locatedRoles

/-- The locator with the given entries, each under its key. -/
def locatorOf (located : List Entry) : Text :=
  if located.isEmpty then []
  else writeTemplate locatorName
    (located.map fun e => assignment (e.locatorKey?.getD []) e.value)

/-- The parameter that an entry with a key is written as for the name at position `i`. -/
def Entry.paramAt (i : Nat) (e : Entry) : Text :=
  assignment (reindexedKey (e.key.getD []) e.role i) e.value

/-- The parameters of names that are counted from `i` on: each name, and what is bound to it.
`count` names without a key stand in front. -/
def holdingParams : (i count : Nat) → List Holding → List Text
  | _, _, [] => []
  | i, count, (n, own) :: r =>
    if n.key.isNone then
      nameParam n.value i count :: (own.map (Entry.paramAt i) ++
        holdingParams (i + 1) (if needsNoKey n.value i count then count + 1 else count) r)
    else n.paramAt i :: (own.map (Entry.paramAt i) ++ holdingParams (i + 1) count r)

section Divides

variable {own : List Entry}

/-- Entries are those of each role, one role after the other. -/
theorem perm_flatMap_roles {roles : List Role} (hroles : roles.Nodup)
    (h : ∀ e ∈ own, e.role ∈ roles) :
    own.Perm (roles.flatMap fun role => own.filter fun e => e.role = role) := by
  induction roles generalizing own with
  | nil =>
    obtain rfl : own = [] := List.eq_nil_iff_forall_not_mem.mpr fun e he => by simpa using h e he
    exact .nil
  | cons role roles ih =>
    obtain ⟨hnot, hrest⟩ := List.nodup_cons.mp hroles
    have hroles : ∀ e ∈ own.filter fun e => !decide (e.role = role), e.role ∈ roles := by
      intro e he
      obtain ⟨hmem, hne⟩ := List.mem_filter.mp he
      exact (List.mem_cons.mp (h e hmem)).resolve_left (by simpa using hne)
    have hothers := ih hrest hroles
    have hsame : (roles.flatMap fun r => (own.filter fun e => !decide (e.role = role)).filter
          fun e => e.role = r) = roles.flatMap fun r => own.filter fun e => e.role = r := by
      refine List.flatMap_congr fun r hr => ?_
      have hne : r ≠ role := fun heq => hnot (heq ▸ hr)
      rw [List.filter_filter]
      refine List.filter_congr fun e _ => ?_
      by_cases he : e.role = r
      · simp [he, hne]
      · simp [he]
    rw [hsame] at hothers
    rw [List.flatMap_cons]
    exact (List.filter_append_perm _ own).symm.trans (hothers.append_left _)

/-- With at most one entry of each role, entries that are taken role by role have their roles in
order. -/
theorem sublist_flatMap_roles (h : (own.map (·.role)).Nodup) (roles : List Role) :
    ((roles.flatMap fun role => own.filter fun e => e.role = role).map (·.role)).Sublist roles := by
  induction roles with
  | nil => exact .slnil
  | cons role roles ih =>
    have hone := length_filter_role h role
    have hfirst : ((own.filter fun e => e.role = role).map (·.role)).Sublist [role] := by
      cases hfilter : own.filter fun e => e.role = role with
      | nil => exact List.nil_sublist _
      | cons e rest =>
        rw [hfilter, List.length_cons] at hone
        obtain rfl : rest = [] := List.length_eq_zero_iff.mp (by omega)
        have hmem : e ∈ own.filter fun e => e.role = role := hfilter ▸ List.mem_singleton_self e
        have hrole : e.role = role := by simpa using (List.mem_filter.mp hmem).2
        rw [List.map_singleton, hrole]
    rw [List.flatMap_cons, List.map_append]
    exact hfirst.append ih

/-- The locator of a name holds its pages and places. -/
theorem writeLocator_eq_locatorOf (own : List Entry) : writeLocator own =
    locatorOf (locatedRoles.flatMap fun role => own.filter fun e => e.role = role) := by
  have hparams : locatorSegments own =
      (locatedRoles.flatMap fun role => own.filter fun e => e.role = role).map
        fun e => assignment (e.locatorKey?.getD []) e.value := by
    rw [locatorSegments, List.map_flatMap]
    refine List.flatMap_congr fun role hrole => ?_
    refine List.filterMap_eq_map_iff_forall_eq_some.mpr fun e he => ?_
    have hrole : e.role ∈ locatedRoles := by
      have : e.role = role := by simpa using (List.mem_filter.mp he).2
      rwa [this]
    obtain ⟨key, hkey⟩ := Option.isSome_iff_exists.mp ((locatorKey?_isSome_iff e).mpr hrole)
    rw [hkey]
    rfl
  rw [writeLocator_eq, hparams, locatorOf, List.isEmpty_map]

/-- **A tag and a locator hold what is bound to a name that becomes a tag.** -/
theorem exists_divides {x : Share} (hgoes : x.stays = false) (howned : x.1.IsOwned) :
    ∃ grouped located, Divides x.1.2 grouped located ∧
      boundGroup? x.1.2 = grouped.head?.map (·.value) ∧ writeLocator x.1.2 = locatorOf located := by
  have hnodup := roles_nodup (x := x.1) hgoes
  have hroles : ∀ e ∈ x.1.2, e.role ∈ .group :: locatedRoles := by
    intro e he
    have hname : e.role ≠ .name := of_decide_eq_false (howned.own e he).1
    have hother : e.role ≠ .other := by
      intro hrole
      have := (Bool.or_eq_false_iff.mp hgoes).1
      simp only [List.contains_eq_mem, decide_eq_false_iff_not] at this
      exact this (List.mem_map.mpr ⟨e, he, hrole⟩)
    cases hrole : e.role <;> simp_all [locatedRoles]
  refine ⟨x.1.2.filter fun e => e.role = .group, _, ⟨?_, ?_, ?_, ?_⟩, ?_,
    writeLocator_eq_locatorOf x.1.2⟩
  · exact perm_flatMap_roles (by decide) hroles
  · exact fun e he => by simpa using (List.mem_filter.mp he).2
  · exact length_filter_role hnodup .group
  · exact sublist_flatMap_roles hnodup locatedRoles
  · rw [boundGroup?_eq hgoes, ownGroup?, List.head?_filter]

end Divides

section Params

variable {position : Entry → Nat} {i count : Nat} {own rest : List Entry} {xs : List Holding}

theorem movedParams_own (hkeys : ∀ e ∈ own, e.key ≠ none) (hposition : ∀ e ∈ own, position e = i) :
    movedParams position count (own ++ rest) =
      own.map (Entry.paramAt i) ++ movedParams position count rest := by
  induction own with
  | nil => rfl
  | cons e own ih =>
    obtain ⟨k, hk⟩ := Option.ne_none_iff_exists'.mp (hkeys e List.mem_cons_self)
    have hrest := ih (fun x hx => hkeys x (List.mem_cons_of_mem _ hx))
      fun x hx => hposition x (List.mem_cons_of_mem _ hx)
    rw [List.cons_append, movedParams_keyed hk, hrest, hposition e List.mem_cons_self,
      List.map_cons, Entry.paramAt, hk]
    rfl

/-- **Each name is written at its position, and what is bound to it right behind it.** -/
theorem movedParams_holdings (howned : ∀ x ∈ xs, x.IsOwned)
    (hkeys : ∀ x ∈ xs, ∀ e ∈ x.2, e.key ≠ none)
    (hposition : ∀ k x, xs[k]? = some x → ∀ e ∈ x.entries, position e = i + k) :
    movedParams position count (xs.flatMap Holding.entries) = holdingParams i count xs := by
  induction xs generalizing i count with
  | nil => rfl
  | cons x xs ih =>
    obtain ⟨n, own⟩ := x
    have hplace : ∀ e ∈ n :: own, position e = i := fun e he => hposition 0 _ rfl e he
    have hname := hplace n List.mem_cons_self
    have hown : ∀ count, movedParams position count (own ++ xs.flatMap Holding.entries) =
        own.map (Entry.paramAt i) ++ holdingParams (i + 1) count xs := by
      intro count
      have hrest : movedParams position count (xs.flatMap Holding.entries) =
          holdingParams (i + 1) count xs :=
        ih (fun x hx => howned x (List.mem_cons_of_mem _ hx))
          (fun x hx => hkeys x (List.mem_cons_of_mem _ hx))
          fun k x hx e he => by rw [hposition (k + 1) x hx e he]; omega
      rw [movedParams_own (hkeys _ List.mem_cons_self)
        fun e he => hplace e (List.mem_cons_of_mem _ he), hrest]
    rw [List.flatMap_cons, Holding.entries, List.cons_append, holdingParams]
    cases hk : n.key with
    | none =>
      rw [movedParams_name hk (howned _ List.mem_cons_self).name, hname, hown]
      rfl
    | some k =>
      rw [movedParams_keyed hk, hname, hown, if_neg (by simp), Entry.paramAt, hk]
      rfl

end Params

/-! ## 4. Blocks -/

/-- A block of an expansion: a name that becomes a tag, or names that stay in a chain. -/
inductive Block where
  | tag (x : Share)
  | chain (xs : List Share)

namespace Block

/-- The names of a block. -/
def shares : Block → List Share
  | tag x => [x]
  | chain xs => xs

/-- The block is a chain. -/
def isChain : Block → Bool
  | tag _ => false
  | chain _ => true

/-- What is written for a block.  A tag holds the group, and the locator behind it everything else
that is bound to the name.  A chain holds its names, one at least, each with what is bound to it. -/
inductive Writes (template : Text) : Block → Text → Prop
  | tag {x : Share} {t : Text} {grouped located : List Entry} (goes : x.stays = false)
    (divides : Divides x.1.2 grouped located)
    (isTag : x.2.IsTag (grouped.head?.map (·.value)) t) :
    Writes template (.tag x) (t ++ locatorOf located)
  | chain {xs : List Share} (some : xs ≠ [])
    (stay : ∀ x ∈ xs, x.stays = true ∧ fitsChain x.finalName = true) :
    Writes template (.chain xs)
      (writeTemplate template (holdingParams 1 0 (xs.map Share.renamed)))

end Block

/-- The text is a row of blocks with the given names: each of them is in one block, in order, and no
two chains are neighbours. -/
structure AreBlocks (template : Text) (shares : List Share) (blocks : List Block) (t : Text) :
    Prop where
  shares : blocks.flatMap Block.shares = shares
  maximal : blocks.IsChain fun a b => ¬ (a.isChain = true ∧ b.isChain = true)
  written : ∃ chunks, List.Forall₂ (Block.Writes template) blocks chunks ∧ t = chunks.flatten

section Blocks

variable {template t u chunk : Text} {x : Share} {xs ys waiting : List Share}
  {front back : List Block}

/-- A tag parts what stands in front of it from what stands behind it. -/
theorem AreBlocks.tag (hfront : AreBlocks template xs front t)
    (hchunk : Block.Writes template (.tag x) chunk) (hback : AreBlocks template ys back u) :
    AreBlocks template (xs ++ x :: ys) (front ++ .tag x :: back) (t ++ chunk ++ u) := by
  obtain ⟨hshares, hmaximal, chunks, hall, rfl⟩ := hfront
  obtain ⟨hshares', hmaximal', chunks', hall', rfl⟩ := hback
  constructor
  case shares => rw [List.flatMap_append, List.flatMap_cons, hshares, hshares']; rfl
  case maximal =>
    refine List.isChain_append.mpr ⟨hmaximal, List.isChain_cons.mpr ⟨?_, hmaximal'⟩, ?_⟩
    · rintro b - ⟨htag, -⟩
      cases htag
    · rintro a - b hb ⟨-, htag⟩
      obtain rfl : Block.tag x = b := by simpa using hb
      cases htag
  case written =>
    refine ⟨chunks ++ chunk :: chunks', List.rel_append hall (.cons hchunk hall'), ?_⟩
    rw [List.flatten_append, List.flatten_cons, List.append_assoc]

/-- The names of a chain stay in it and fit there. -/
theorem AreBlocks.chain (h : AreBlocks template xs front t) (hmem : .chain ys ∈ front) :
    ys ≠ [] ∧ (∀ x ∈ ys, x.stays = true ∧ fitsChain x.finalName = true) ∧ ys.Sublist xs := by
  obtain ⟨hshares, -, chunks, hall, -⟩ := h
  obtain ⟨i, hi, hblock⟩ := List.getElem_of_mem hmem
  have hwrites := hall.get hi (by rwa [← hall.length_eq])
  rw [List.get_eq_getElem, hblock] at hwrites
  generalize chunks.get _ = chunk at hwrites
  cases hwrites with
  | chain hne hstay =>
    refine ⟨hne, hstay, ?_⟩
    rw [← hshares, List.flatMap_def]
    exact List.sublist_flatten_of_mem (List.mem_map.mpr ⟨_, hmem, rfl⟩)

/-- Names that stay in a chain have indices that differ. -/
theorem nodup_of_stay (hstay : ∀ x ∈ xs, x.stays = true)
    (hindex : xs.Pairwise fun x y => x.1.1.index = y.1.1.index → y.stays = false) :
    (xs.map (·.1.1.index)).Nodup := by
  refine List.pairwise_map.mpr (hindex.imp_of_mem fun {y z} _ hz h heq => ?_)
  exact absurd ((h heq).symm.trans (hstay z hz)) (by decide)

variable (template) in
/-- What waits becomes one chain, if something does. -/
theorem exists_waiting (hstay : ∀ x ∈ waiting, x.stays = true ∧ fitsChain x.finalName = true)
    (howned : ∀ x ∈ waiting, x.1.IsOwned) (hkeys : ∀ x ∈ waiting, ∀ e ∈ x.1.2, e.key ≠ none)
    (hindex : waiting.Pairwise fun x y => x.1.1.index = y.1.1.index → y.stays = false) :
    ∃ blocks, AreBlocks template waiting blocks
      ((writeRenumbered? template (waiting.flatMap fun x => x.renamed.entries)).getD []) := by
  cases waiting with
  | nil => exact ⟨[], rfl, .nil, [], .nil, rfl⟩
  | cons x rest =>
    have hrenamed : ∀ y ∈ (x :: rest).map Share.renamed, y.IsOwned ∧ ∀ e ∈ y.2, e.key ≠ none := by
      intro y hy
      obtain ⟨z, hz, rfl⟩ := List.mem_map.mp hy
      exact ⟨⟨(howned z hz).name, (howned z hz).own⟩, hkeys z hz⟩
    have hnodup : (((x :: rest).map Share.renamed).map (·.1.index)).Nodup := by
      rw [List.map_map]
      exact nodup_of_stay (fun y hy => (hstay y hy).1) hindex
    obtain ⟨position, hwritten, hposition⟩ := writeRenumbered?_owned template
      (by simp) (fun y hy => (hrenamed y hy).1) hnodup
    have hentries : ((x :: rest).flatMap fun x => x.renamed.entries) =
        ((x :: rest).map Share.renamed).flatMap Holding.entries := by rw [List.flatMap_map]
    refine ⟨[.chain (x :: rest)], by simp [Block.shares], .singleton _,
      [writeTemplate template (holdingParams 1 0 ((x :: rest).map Share.renamed))],
      .cons (.chain (List.cons_ne_nil _ _) hstay) .nil, ?_⟩
    rw [hentries, hwritten, movedParams_holdings (fun y hy => (hrenamed y hy).1)
      (fun y hy => (hrenamed y hy).2) hposition, Option.getD_some, List.flatten_singleton]

variable (template) in
/-- **Pieces that are joined are a row of blocks.** -/
theorem exists_blocks {pieces : List Piece} (hpieces : List.Forall₂ Share.Becomes xs pieces)
    (hstay : ∀ x ∈ waiting, x.stays = true ∧ fitsChain x.finalName = true)
    (howned : ∀ x ∈ waiting ++ xs, x.1.IsOwned)
    (hkeys : ∀ x ∈ waiting ++ xs, ∀ e ∈ x.1.2, e.key ≠ none)
    (hindex : (waiting ++ xs).Pairwise fun x y => x.1.1.index = y.1.1.index → y.stays = false) :
    ∃ blocks, AreBlocks template (waiting ++ xs) blocks
      (joinPieces template (waiting.flatMap fun x => x.renamed.entries) pieces) := by
  -- an induction on the names to come, whichever wait
  induction hpieces generalizing waiting with
  | nil =>
    rw [List.append_nil] at howned hkeys hindex ⊢
    exact exists_waiting template hstay howned hkeys hindex
  | @cons x piece xs pieces hx _ ih =>
    cases hx with
    | chained hxstays hxfits =>
      have hall : waiting ++ x :: xs = (waiting ++ [x]) ++ xs := by simp
      have hwait : (waiting.flatMap fun x => x.renamed.entries) ++ x.renamed.entries =
          (waiting ++ [x]).flatMap fun x => x.renamed.entries := by simp
      rw [joinPieces, hwait, hall]
      rw [hall] at howned hkeys hindex
      refine ih (fun y hy => ?_) howned hkeys hindex
      rcases List.mem_append.mp hy with hy | hy
      · exact hstay y hy
      · exact List.mem_singleton.mp hy ▸ ⟨hxstays, hxfits⟩
    | @tag t hgoes htag =>
      obtain ⟨hwindex, hxindex, -⟩ := List.pairwise_append.mp hindex
      obtain ⟨front, hfront⟩ := exists_waiting template hstay
        (fun y hy => howned y (List.mem_append_left _ hy))
        (fun y hy => hkeys y (List.mem_append_left _ hy)) hwindex
      have hnone : ∀ y ∈ ([] : List Share), y.stays = true ∧ fitsChain y.finalName = true := by simp
      obtain ⟨back, hback⟩ := ih hnone
        (fun y hy => howned y (List.mem_append_right _ (List.mem_cons_of_mem _ hy)))
        (fun y hy => hkeys y (List.mem_append_right _ (List.mem_cons_of_mem _ hy)))
        (List.pairwise_cons.mp hxindex).2
      obtain ⟨grouped, located, hdivides, hgroup, hlocator⟩ := exists_divides hgoes
        (howned x (List.mem_append_right _ List.mem_cons_self))
      rw [hgroup] at htag
      rw [joinPieces, hlocator]
      exact ⟨_, hfront.tag (.tag hgoes hdivides htag) hback⟩

end Blocks

/-! ## 5. What the chain of a block says -/

/-- The chain that is written for holdings is read as their names, counted from 1, each with what is
bound to it right behind it. -/
def SaysAll (xs : List Holding) : Prop :=
  (chainEntries (Text.join ['|'] (holdingParams 1 0 xs))).map Entry.said = countedFrom 1 xs

/-- The entries of holdings can be told apart, and those of the first name say the same without an
index. -/
structure AreClear (xs : List Holding) : Prop where
  closed : (xs.flatMap Holding.entries).Pairwise fun e _ => IsClosed e.written
  first : ∀ x ∈ xs.head?, ∀ e ∈ x.2, e.MovesTo 1

section Says

variable {s : Text} {xs : List Share}

/-- **The chain of a block says what belongs to its names if and only if that is clear.** -/
theorem saysAll_iff (hne : xs ≠ []) (howned : ∀ x ∈ xs, x.1.IsOwned)
    (hentries : ∀ x ∈ xs, ∀ e ∈ x.1.entries, e ∈ chainEntries s)
    (hfits : ∀ x ∈ xs, IsValue x.finalName ∧ fitsChain x.finalName = true)
    (hindex : (xs.map (·.1.1.index)).Nodup) :
    SaysAll (xs.map Share.renamed) ↔ AreClear (xs.map Share.renamed) := by
  obtain ⟨hparted, hwritten⟩ := isParted_written s
  -- each entry is one of the chain, but for the value of a name
  have hbecome : ∀ y ∈ xs.map Share.renamed, ∀ e' ∈ y.entries,
      ∃ e ∈ chainEntries s, e.MayBecome e' := by
    intro y hy e' he'
    obtain ⟨x, hx, rfl⟩ := List.mem_map.mp hy
    rcases List.mem_cons.mp he' with rfl | he'
    · exact ⟨x.1.1, hentries x hx _ List.mem_cons_self, .inr ⟨(howned x hx).name, x.finalName,
        (hfits x hx).1, isClosed_of_fitsChain (hfits x hx).2, rfl⟩⟩
    · exact ⟨e', hentries x hx _ (List.mem_cons_of_mem _ he'), .inl rfl⟩
  have hread : ∀ y ∈ xs.map Share.renamed, y.IsRead := by
    intro y hy
    obtain ⟨x, hx, rfl⟩ := List.mem_map.mp hy
    refine ⟨(howned x hx).name, (howned x hx).own, fun e' he' => ?_⟩
    obtain ⟨e, he, hmay⟩ := hbecome _ hy e' he'
    exact hmay.isRead (hwritten e he).1
  have hsign : ∀ y ∈ xs.map Share.renamed, ∀ e' ∈ y.entries, e'.HasSign := by
    intro y hy e' he'
    obtain ⟨e, he, hmay⟩ := hbecome y hy e' he'
    exact hmay.hasSign (hwritten e he).2
  have hpiece : ∀ y ∈ xs.map Share.renamed, ∀ e' ∈ y.entries, IsPiece e'.written := by
    intro y hy e' he'
    obtain ⟨e, he, hmay⟩ := hbecome y hy e' he'
    rcases hmay.written (hwritten e he).1 with hsame | ⟨hclosed, -⟩
    · exact hsame ▸ hparted.piece _ (List.mem_map_of_mem he)
    · exact hclosed.isPiece
  have hnil : xs.map Share.renamed ≠ [] := by simpa using hne
  obtain ⟨position, -, hposition⟩ := writeRenumbered?_eq [] hnil hread (by rwa [List.map_map])
  have hkeys : ∀ y ∈ xs.map Share.renamed, ∀ e ∈ y.2, e.key ≠ none := fun y hy e he hnone =>
    of_decide_eq_false ((hread y hy).own e he).1
      (((hread y hy).read e (List.mem_cons_of_mem _ he)).keyless hnone)
  rw [SaysAll, ← movedParams_holdings (fun y hy => (hread y hy).isOwned) hkeys hposition,
    chainEntries, said_movedParams hnil hread hsign hpiece hposition]
  constructor
  · rintro ⟨hparts, hmoves⟩
    exact ⟨List.pairwise_map.mp hparts.closed, hmoves⟩
  · rintro ⟨hclosed, hmoves⟩
    refine ⟨⟨List.forall_mem_map.mpr fun e he => ?_, List.pairwise_map.mpr hclosed⟩, hmoves⟩
    obtain ⟨y, hy, he⟩ := List.mem_flatMap.mp he
    exact hpiece y hy e he

end Says

/-! ## 6. Chains that are taken apart -/

namespace Chain

/-- Why a chain cannot be taken apart: an entry belongs to no name, or a name prevents it. -/
inductive Hinders (c : Chain) (targets : List Target) : Abstention → Prop
  | unbound {e : Entry} (mem : e ∈ c.plainEntries) (other : e.isName = false)
    (loose : ∀ n ∈ c.plainEntries, n.isName = true → n.index ≠ e.index) :
    Hinders c targets (.unbound (e.key.getD []) e.value c.template.written)
  | name {x : Share} {why : Abstention} (mem : x ∈ c.bound.zip targets)
    (hinders : x.Hinders c.template.written why) : Hinders c targets why

variable {c : Chain} {targets : List Target}

/-- A chain has a reason that prevents it from being taken apart and is given, or it has none, and
becomes the pieces of its names. -/
theorem expand_pieces (c : Chain) (targets : List Target) :
    (∃ why, c.Hinders targets why ∧ c.expand targets = .error why) ∨
      (∀ why, ¬ c.Hinders targets why) ∧ unboundEntry? c.plainEntries = none ∧
        ∃ pieces, List.Forall₂ Share.Becomes (c.bound.zip targets) pieces ∧
          c.expand targets = .ok (if pieces.isEmpty then none
            else some (joinPieces c.template.chainName [] pieces)) := by
  cases hunbound : unboundEntry? c.plainEntries with
  | some e =>
    refine .inl ⟨_, ?_, expand_of_unbound hunbound⟩
    have hloose := List.find?_some hunbound
    simp only [Bool.and_eq_true, Bool.not_eq_true', List.any_eq_false] at hloose
    exact .unbound (List.mem_of_find?_eq_some hunbound) hloose.1 fun n hn hname hindex =>
      hloose.2 n hn (by simp [hname, hindex])
  | none =>
    have hfold := expand_of_bound targets hunbound
    rcases mapM_cases c.pieceOf (c.bound.zip targets) with ⟨x, hx, why, hwhy, hfails⟩ |
      ⟨pieces, hpieces, hall⟩
    · rcases expandName_cases c.template.written x with ⟨why', hwhy', hhinders⟩ |
        ⟨-, piece, hpiece, -⟩
      · obtain rfl : why = why' := Except.error.inj (hwhy.symm.trans hwhy')
        exact .inl ⟨why, .name hx hhinders, by rw [hfold, hfails]; rfl⟩
      · exact absurd (hwhy.symm.trans hpiece) (by simp)
    · have hgood : ∀ x piece, c.pieceOf x = .ok piece →
          (∀ why, ¬ Share.Hinders c.template.written x why) ∧ Share.Becomes x piece := by
        intro x piece hpiece
        rcases expandName_cases c.template.written x with ⟨why, hwhy, -⟩ |
          ⟨hnot, piece', hpiece', hbecomes⟩
        · exact absurd (hwhy.symm.trans hpiece) (by simp)
        · obtain rfl : piece' = piece := Except.ok.inj (hpiece'.symm.trans hpiece)
          exact ⟨hnot, hbecomes⟩
      refine .inr ⟨?_, rfl, pieces, hall.imp fun x piece h => (hgood x piece h).2, ?_⟩
      · rintro why (⟨hmem, hother, hloose⟩ | ⟨hmem, hhinders⟩)
        · have hsome := (unboundEntry?_isSome_iff _).mpr ⟨_, hmem, hother, hloose⟩
          rw [hunbound] at hsome
          cases hsome
        · obtain ⟨piece, -, hpiece⟩ := exists_of_mapM_ok hpieces hmem
          exact (hgood _ piece hpiece).1 why hhinders
      · rw [hfold, hpieces]
        rfl

/-- What is bound to a name has a key. -/
theorem key_ne_none_of_mem_bound (hc : c.entries = placedEntries c.template.paramText)
    {x : Holding} (hx : x ∈ c.bound) : ∀ e ∈ x.2, e.key ≠ none := by
  obtain ⟨howned, hmem⟩ := mem_of_mem_bound hx
  intro e he hnone
  have hread : e.IsRead :=
    isRead_of_mem_placedEntries (t := c.template.paramText) (by rw [← hc]; exact hmem e he)
  exact of_decide_eq_false (howned.own e he).1 (hread.keyless hnone)

/-- **A chain is taken apart as a whole or not at all, and nothing that belongs to its names is
left out.**  Either there is a reason against it: then the chain stays and the reason is told.  Or
there is none: then nothing is told, and the text in its place is a row of blocks, in which each
name stands once, for its target and with what is bound to it.  A block that is a chain is read as
that if and only if it is clear, provided that its names are values. -/
theorem expand_blocks (hc : c.entries = placedEntries c.template.paramText) (hnames : c.names ≠ [])
    (hadmits : c.admits targets = true) :
    (∃ why, c.Hinders targets why ∧ c.expand targets = .error why ∧
        ∀ useChains, c.isToExpand useChains targets = true →
          c.edits useChains targets = ([], [.kept why])) ∨
      (∀ why, ¬ c.Hinders targets why) ∧ AreBound c.plainEntries c.bound ∧
        ∃ t shares blocks, c.expand targets = .ok (some t) ∧
          (∀ useChains, c.isToExpand useChains targets = true →
            c.edits useChains targets = ([⟨c.template.span, t⟩], [])) ∧
          shares.map (·.1) = c.bound ∧ shares.map (·.2) = targets ∧
          AreBlocks c.template.chainName shares blocks t ∧
          ∀ xs, .chain xs ∈ blocks → (∀ x ∈ xs, IsValue x.finalName) →
            (SaysAll (xs.map Share.renamed) ↔ AreClear (xs.map Share.renamed)) := by
  rcases expand_pieces c targets with ⟨why, hwhy, hexpand⟩ |
    ⟨hnot, hunbound, pieces, hpieces, hexpand⟩
  · exact .inl ⟨why, hwhy, hexpand, fun useChains hto => by rw [edits, if_pos hto, hexpand]⟩
  obtain ⟨shares, hshares⟩ : ∃ shares : List Share, shares = c.bound.zip targets := ⟨_, rfl⟩
  rw [← hshares] at hpieces
  have hlength : targets.length = c.names.length := of_decide_eq_true hadmits
  have hbound := c.length_bound
  have hfst : shares.map (·.1) = c.bound := hshares ▸ List.map_fst_zip (by omega)
  have hsnd : shares.map (·.2) = targets := hshares ▸ List.map_snd_zip (by omega)
  have hmem : ∀ x ∈ shares, x.1 ∈ c.bound := fun x hx => hfst ▸ List.mem_map_of_mem hx
  have hnonempty : pieces.isEmpty = false := by
    have hpos := List.length_pos_iff.mpr hnames
    have heq := congrArg List.length hsnd
    rw [List.length_map, hpieces.length_eq] at heq
    rw [List.isEmpty_eq_false_iff, ← List.length_pos_iff]
    omega
  have howned : ∀ x ∈ shares, x.1.IsOwned := fun x hx => (mem_of_mem_bound (hmem x hx)).1
  have hindex : shares.Pairwise fun x y => x.1.1.index = y.1.1.index → y.stays = false := by
    refine (List.pairwise_map.mp (hfst.symm ▸ c.pairwise_bound)).imp fun {x y} hxy heq => ?_
    rw [Share.stays, hxy heq]
    rfl
  have hnone : ∀ x ∈ ([] : List Share), x.stays = true ∧ fitsChain x.finalName = true := by simp
  obtain ⟨blocks, hblocks⟩ := exists_blocks c.template.chainName hpieces hnone howned
    (fun x hx => key_ne_none_of_mem_bound hc (hmem x hx)) hindex
  rw [hnonempty] at hexpand
  refine .inr ⟨hnot, areBound hunbound, _, shares, blocks, hexpand, fun useChains hto => ?_, hfst,
    hsnd, hblocks, fun xs hxs hvalues => ?_⟩
  · rw [edits, if_pos hto, hexpand]
    rfl
  · obtain ⟨hne, hstay, hsub⟩ := hblocks.chain hxs
    refine saysAll_iff hne (fun x hx => howned x (hsub.mem hx)) (s := c.template.paramText)
      (fun x hx e he => ?_) (fun x hx => ⟨hvalues x hx, (hstay x hx).2⟩)
      (nodup_of_stay (fun x hx => (hstay x hx).1) (hindex.sublist hsub))
    have hentries : chainEntries c.template.paramText = c.plainEntries := by
      rw [chainEntries, ← hc]
      rfl
    rw [hentries]
    have hx := hmem x (hsub.mem hx)
    rcases List.mem_cons.mp he with rfl | he
    · exact (List.mem_filter.mp (map_fst_bound c ▸ List.mem_map_of_mem hx)).1
    · exact (mem_of_mem_bound hx).2 e he

/-- Of four names two become tags, and two that a tag cannot hold stay in a chain between them. -/
theorem expand_blocks_four_names :
    let params := "a|group=g|b|lang2=y|c|lang3=z|d|p4=7".toList
    let c : Chain := ⟨0, ⟨⟨0, 42, by decide⟩, "r".toList, params, 4, []⟩, placedEntries params⟩
    let targets : List Target := [⟨some "A".toList, none⟩, ⟨some "b".toList, none⟩,
      ⟨some "c".toList, none⟩, ⟨none, some "x".toList⟩]
    let t := ("<ref name=\"A\" group=\"g\" />\x7b\x7br|b|lang=y|c|lang2=z\x7d\x7d" ++
      "<ref>x</ref>\x7b\x7brp|p=7\x7d\x7d").toList
    c.entries = placedEntries c.template.paramText ∧ c.names ≠ [] ∧ c.admits targets = true ∧
      c.expand targets = .ok (some t) ∧ AreBound c.plainEntries c.bound ∧
      ∃ shares blocks, shares.map (·.1) = c.bound ∧ shares.map (·.2) = targets ∧
        AreBlocks c.template.chainName shares blocks t := by
  intro params c targets t
  have hnames : c.names ≠ [] := by decide
  have hadmits : c.admits targets = true := by decide
  have hexpand : c.expand targets = .ok (some t) := by decide
  refine ⟨rfl, hnames, hadmits, hexpand, ?_⟩
  rcases expand_blocks (c := c) rfl hnames hadmits with ⟨why, -, hwhy, -⟩ |
    ⟨-, hbound, t', shares, blocks, ht, -, hfst, hsnd, hblocks, -⟩
  · rw [hexpand] at hwhy
    cases hwhy
  · obtain rfl : t = t' := Option.some.inj (Except.ok.inj (hexpand.symm.trans ht))
    exact ⟨hbound, shares, blocks, hfst, hsnd, hblocks⟩

/-- **A bracket that was open at the end of a chain hides a name**, and nothing is told: both names
stay in the chain, but only the first of them is read in what is written anew. -/
theorem name_hidden_by_bracket :
    let named (t : Text) := (Model.ofText t defaultListNames).chains.map
      fun c => citedNames c.template.paramText
    let t := "\x7b\x7br|a|b|lang2=y|lang1=[[x\x7d\x7d".toList
    let u := "\x7b\x7br|a|lang=[[x|b|lang2=y\x7d\x7d".toList
    let targets : List Target := [⟨some "a".toList, none⟩, ⟨some "b".toList, none⟩]
    named t = [["a".toList, "b".toList]] ∧
      (∀ c ∈ (Model.ofText t defaultListNames).chains, c.admits targets = true ∧
        c.bound.map (fun x => isUnconvertible x.2) = [true, true] ∧
        c.expand targets = .ok (some u)) ∧
      named u = [["a".toList]] := by
  decide +kernel

/-- **A target with an empty name loses the group**, and nothing is told: the tag in the place of
the chain is bare. -/
theorem group_lost_by_empty_name :
    let chains := (Model.ofText "\x7b\x7br|a|group=g\x7d\x7d".toList defaultListNames).chains
    let targets : List Target := [⟨some [], none⟩]
    chains.length = 1 ∧ ∀ c ∈ chains, c.names ≠ [] ∧ c.admits targets = true ∧
      c.bound = [(⟨none, "a".toList, .name, 1⟩, [⟨some "group".toList, "g".toList, .group, 1⟩])] ∧
      isUnconvertible (c.bound.flatMap (·.2)) = false ∧
      c.expand targets = .ok (some "<ref />".toList) ∧ ¬ "g".toList <:+: "<ref />".toList := by
  decide +kernel

end Chain

end CiteMarkup
