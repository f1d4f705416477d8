import CiteMarkup.Proofs.Chain.Renumbering
/-!
# What stays with its name

When some names of a chain are counted anew, each takes with it all that belongs to it: the entries
with its index.  If no two names of the chain have one index, the chain that is written from them is
read as it was, at the new positions, if and only if no bracket is left open before its end and the
keys of what belongs to the first name still say it when they have lost their index
(`bindings_renumbered`).

There are two exceptions.  The last entry of a chain may leave a bracket open, and it can stand in
front of others when its name is counted anew.  A key can have a blank in front of its index, such
as `group 1`: it is not known with the blank, and nothing but a group without it
(`binding_lost_with_blank`).
-/

namespace CiteMarkup

/-! ## 1. Names that are picked out of a chain -/

/-- The entries of a parameter text, without their places. -/
def chainEntries (t : Text) : List Entry := (placedEntries t).map (·.toEntry)

/-- Names picked out of a chain, each with all that belongs to it. -/
def holdingsOf (entries picked : List Entry) : List Holding :=
  picked.map fun n => (n, entries.filter fun e => !e.isName && e.index = n.index)

section Holdings

variable {t : Text} {picked : List Entry} {x : Holding}

/-- What is picked out of a chain is as it is read. -/
theorem mem_holdingsOf (hpicked : picked.Sublist ((chainEntries t).filter Entry.isName))
    (hx : x ∈ holdingsOf (chainEntries t) picked) :
    x.IsRead ∧ ∀ e ∈ x.entries, e ∈ chainEntries t := by
  obtain ⟨n, hn, rfl⟩ := List.mem_map.mp hx
  obtain ⟨hmem, hname⟩ := List.mem_filter.mp (hpicked.mem hn)
  have hall : ∀ e ∈ n :: (chainEntries t).filter fun e => !e.isName && e.index = n.index,
      e ∈ chainEntries t := by
    intro e he
    rcases List.mem_cons.mp he with rfl | he
    · exact hmem
    · exact (List.mem_filter.mp he).1
  refine ⟨⟨hname, fun e he => ?_, fun e he => ((isParted_written t).2 e (hall e he)).1⟩, hall⟩
  simpa using (List.mem_filter.mp he).2

/-- Entries that are picked out of a chain are pieces where they are written by themselves. -/
theorem isPiece_holdings (hpicked : picked.Sublist ((chainEntries t).filter Entry.isName)) :
    ∀ x ∈ holdingsOf (chainEntries t) picked, ∀ e ∈ x.entries, IsPiece e.written := by
  intro x hx e he
  exact (isParted_written t).1.piece _ (List.mem_map_of_mem ((mem_holdingsOf hpicked hx).2 e he))

/-- **Entries that are picked out of a chain can be told apart** if and only if what is left open by
one of them stands at the end. -/
theorem isParted_holdings (hpicked : picked.Sublist ((chainEntries t).filter Entry.isName)) :
    IsParted (((holdingsOf (chainEntries t) picked).flatMap Holding.entries).map Entry.written) ↔
      ((holdingsOf (chainEntries t) picked).flatMap Holding.entries).Pairwise
        fun e _ => IsClosed e.written := by
  constructor
  · intro hparted
    exact List.pairwise_map.mp hparted.closed
  · intro hclosed
    refine ⟨List.forall_mem_map.mpr fun e he => ?_, List.pairwise_map.mpr hclosed⟩
    obtain ⟨x, hx, he⟩ := List.mem_flatMap.mp he
    exact isPiece_holdings hpicked x hx e he

end Holdings

/-! ## 2. The chain of what has been picked -/

/-- **What belongs to a name stays with it when the name is counted anew.**  In a chain whose names
have an index each, names are picked in their order, one at least, each with all that has its index.
The chain that is written from them is read as these names, counted from 1, each with the same
values in the same roles right behind it, if and only if no entry but the last leaves a bracket open
and the keys of what belongs to the first name say the same without an index as with it. -/
theorem bindings_renumbered {t : Text} (template : Text) {picked : List Entry} (hne : picked ≠ [])
    (hpicked : picked.Sublist ((chainEntries t).filter Entry.isName))
    (hindex : (((chainEntries t).filter Entry.isName).map (·.index)).Nodup) :
    ∃ params : List Text,
      writeRenumbered? template ((holdingsOf (chainEntries t) picked).flatMap Holding.entries) =
        some (writeTemplate template params) ∧
      ((chainEntries (Text.join ['|'] params)).map Entry.said =
          countedFrom 1 (holdingsOf (chainEntries t) picked) ↔
        (((holdingsOf (chainEntries t) picked).flatMap Holding.entries).Pairwise
          fun e _ => IsClosed e.written) ∧
        ∀ n ∈ picked.head?, ∀ e ∈ chainEntries t, e.isName = false → e.index = n.index →
          ∀ k ∈ e.key, (KeyMeaning.of (Text.trim (unindexed k))).role = e.role ∧
            ∀ i ∈ (KeyMeaning.of (Text.trim (unindexed k))).index, i ≤ 1) := by
  have hread : ∀ x ∈ holdingsOf (chainEntries t) picked, x.IsRead :=
    fun x hx => (mem_holdingsOf hpicked hx).1
  have hsign : ∀ x ∈ holdingsOf (chainEntries t) picked, ∀ e ∈ x.entries, e.HasSign :=
    fun x hx e he => ((isParted_written t).2 e ((mem_holdingsOf hpicked hx).2 e he)).2
  have hnil : holdingsOf (chainEntries t) picked ≠ [] := by simpa [holdingsOf] using hne
  have hdistinct : ((holdingsOf (chainEntries t) picked).map (·.1.index)).Nodup := by
    rw [holdingsOf, List.map_map]
    exact hindex.sublist (hpicked.map _)
  obtain ⟨position, hwritten, hposition⟩ := writeRenumbered?_eq template hnil hread hdistinct
  refine ⟨_, hwritten, ?_⟩
  rw [chainEntries, said_movedParams hnil hread hsign (isPiece_holdings hpicked) hposition]
  refine and_congr (isParted_holdings hpicked) ?_
  cases picked with
  | nil => exact absurd rfl hne
  | cons n picked =>
    -- what belongs to the first name is known by its index
    have hown : ∀ e, e ∈ ((chainEntries t).filter fun e => !e.isName && e.index = n.index) ↔
        e ∈ chainEntries t ∧ e.isName = false ∧ e.index = n.index := by
      intro e
      simp [List.mem_filter]
    have hfirst := hread _ List.mem_cons_self
    constructor
    · intro hmoves m hm e he hname hat
      obtain rfl : n = m := Option.some.inj hm
      have hmem := (hown e).mpr ⟨he, hname, hat⟩
      exact ((hfirst.read e (List.mem_cons_of_mem _ hmem)).movesTo_one
        (of_decide_eq_false hname)).mp (hmoves _ rfl e hmem)
    · intro hkeys x hx e he
      obtain rfl := Option.some.inj hx
      obtain ⟨hmem, hname, hat⟩ := (hown e).mp he
      exact ((hfirst.read e (List.mem_cons_of_mem _ he)).movesTo_one
        (of_decide_eq_false hname)).mpr (hkeys n rfl e hmem hname hat)

/-- The second and the third name of a chain, with a page and a parameter that is not known. -/
theorem bindings_renumbered_second_and_third :
    let t := "a|b|p2=7|lang2=x|c".toList
    let picked := ((chainEntries t).filter Entry.isName).drop 1
    (((chainEntries t).filter Entry.isName).map (·.index)).Nodup ∧
      writeRenumbered? chainName ((holdingsOf (chainEntries t) picked).flatMap Holding.entries) =
        some "\x7b\x7br|b|p=7|lang=x|c\x7d\x7d".toList ∧
      ∃ params : List Text,
        writeRenumbered? chainName ((holdingsOf (chainEntries t) picked).flatMap Holding.entries) =
          some (writeTemplate chainName params) ∧
        (chainEntries (Text.join ['|'] params)).map Entry.said =
          countedFrom 1 (holdingsOf (chainEntries t) picked) := by
  intro t picked
  have hindex : (((chainEntries t).filter Entry.isName).map (·.index)).Nodup := by decide
  have hclosed : ((holdingsOf (chainEntries t) picked).flatMap Holding.entries).Pairwise
      fun e _ => IsClosed e.written := by decide
  have hkeys : ∀ n ∈ picked.head?, ∀ e ∈ chainEntries t, e.isName = false → e.index = n.index →
      ∀ k ∈ e.key, (KeyMeaning.of (Text.trim (unindexed k))).role = e.role ∧
        ∀ i ∈ (KeyMeaning.of (Text.trim (unindexed k))).index, i ≤ 1 := by decide
  obtain ⟨params, hwritten, hread⟩ := bindings_renumbered chainName (by decide : picked ≠ [])
    (List.drop_sublist 1 _) hindex
  exact ⟨hindex, by decide, params, hwritten, hread.mpr ⟨hclosed, hkeys⟩⟩

/-- **A key loses the blank in front of its index, and what it has said.**  The parameter `group 1`
is not known, but what is written for it is read as a group. -/
theorem binding_lost_with_blank :
    let t := "a|group 1=x".toList
    let picked := (chainEntries t).filter Entry.isName
    (picked.map (·.index)).Nodup ∧
      (chainEntries t).map Entry.said = [⟨none, "a".toList, .name, 1⟩, ⟨none, "x".toList, .other, 1⟩] ∧
      writeRenumbered? chainName ((holdingsOf (chainEntries t) picked).flatMap Holding.entries) =
        some (writeTemplate chainName ["a".toList, "group =x".toList]) ∧
      (chainEntries "a|group =x".toList).map Entry.said =
        [⟨none, "a".toList, .name, 1⟩, ⟨none, "x".toList, .group, 1⟩] ∧
      (chainEntries "a|group =x".toList).map Entry.said ≠
        countedFrom 1 (holdingsOf (chainEntries t) picked) := by
  decide

end CiteMarkup
