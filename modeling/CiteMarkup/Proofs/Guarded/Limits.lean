import CiteMarkup.Guarded.Limits
import CiteMarkup.Proofs.Guarded.Model
/-!
# What fits the limits of writing

Two things of a transform can be too long or too deep to be written: a setting that a notice
shows, and a position in front of a name.  Each writer gives the text that it gives without
limits exactly if what it writes fits them, and stops at a limit otherwise (`Within`).  What
fits is said of the value (`Limits.Shows`) and of the positions that a chain needs
(`writtenPositions`), not of the text.
-/

namespace CiteMarkup

/-! ## 1. What is written -/

namespace Value

mutual

/-- How many values stand inside of each other, the value itself included. -/
def height : Value → Nat
  | .list l => heightItems l + 1
  | .object ms => heightMembers ms + 1
  | _ => 1

/-- The greatest height of the values. -/
def heightItems : List Value → Nat
  | [] => 0
  | v :: r => max (height v) (heightItems r)

/-- The greatest height of the values of the members. -/
def heightMembers : List (Text × Value) → Nat
  | [] => 0
  | (_, v) :: r => max (height v) (heightMembers r)

end

mutual

/-- The whole numbers in a value. -/
def numbers : Value → List Int
  | .int i => [i]
  | .list l => numbersOfItems l
  | .object ms => numbersOfMembers ms
  | _ => []

/-- The whole numbers in some values. -/
def numbersOfItems : List Value → List Int
  | [] => []
  | v :: r => numbers v ++ numbersOfItems r

/-- The whole numbers in the values of some members. -/
def numbersOfMembers : List (Text × Value) → List Int
  | [] => []
  | (_, v) :: r => numbers v ++ numbersOfMembers r

end

end Value

/-- The value that a notice shows. -/
def Notice.given? : Notice → Option Value
  | .unusableMode v | .badThreshold v => some v
  | _ => none

/-- A message can show the value: neither is it too deep nor a number in it too long. -/
def Limits.Shows (limits : Limits) (v : Value) : Prop :=
  v.height ≤ limits.depth ∧ ∀ i ∈ v.numbers, limits.admits i

/-- The positions that stand in a chain with the given entries as they are; `count` names
without a key stand before. -/
def writtenPositions : (count : Nat) → List Entry → List Nat
  | _, [] => []
  | count, e :: r =>
    match e.key with
    | some _ => writtenPositions count r
    | none =>
      if e.isName then
        if needsNoKey e.value e.index count then writtenPositions (count + 1) r
        else e.index :: writtenPositions count r
      else if e.role.defaultKey?.isSome && 1 < e.index then e.index :: writtenPositions count r
      else writtenPositions count r

/-- A position that is written is the one of an entry. -/
theorem index_of_mem_writtenPositions {i : Nat} : ∀ {entries : List Entry} {count : Nat},
    i ∈ writtenPositions count entries → ∃ e ∈ entries, e.index = i
  | [], _, h => nomatch h
  | e :: r, count, h => by
    have hlater : ∀ {n : Nat}, i ∈ writtenPositions n r → ∃ e' ∈ e :: r, e'.index = i := by
      intro n hr
      obtain ⟨e', he', heq⟩ := index_of_mem_writtenPositions hr
      exact ⟨e', List.mem_cons_of_mem _ he', heq⟩
    have hhere : ∀ {n : Nat}, i ∈ e.index :: writtenPositions n r →
        ∃ e' ∈ e :: r, e'.index = i := by
      intro n hr
      rcases List.mem_cons.mp hr with rfl | hr
      · exact ⟨e, List.mem_cons_self, rfl⟩
      · exact hlater hr
    rw [writtenPositions] at h
    repeat' split at h
    all_goals first | exact hlater h | exact hhere h

namespace Guarded

variable {α β : Type} {x : Guarded α} {a : α} {f : α → Guarded β} {b : β} {p q : Prop}
  {limits : Limits}

/-! ## 2. Stopping at a limit -/

/-- What is computed is `a` if `p` holds; otherwise the computation stops at a limit. -/
structure Within (x : Guarded α) (a : α) (p : Prop) : Prop where
  gives : p → x = .ok a
  stops : ¬ p → x = .error .longNumber ∨ x = .error .deepValue

namespace Within

theorem of_ok (h : x = .ok a) : Within x a True := ⟨fun _ => h, fun h => absurd trivial h⟩

theorem congr (h : Within x a p) (hpq : p ↔ q) : Within x a q := by rwa [← hpq]

/-- **Both parts of a computation have to fit.** -/
theorem bind (hx : Within x a p) (hf : Within (f a) b q) : Within (x >>= f) b (p ∧ q) := by
  by_cases hp : p
  · rw [hx.gives hp, ok_bind]
    exact hf.congr (and_iff_right hp).symm
  · refine ⟨fun h => absurd h.1 hp, fun _ => ?_⟩
    rcases hx.stops hp with h | h <;> rw [h]
    · exact .inl rfl
    · exact .inr rfl

theorem map (hx : Within x a p) (g : α → β) : Within (x >>= fun a => pure (g a)) (g a) p :=
  (hx.bind (of_ok (x := pure (g a)) rfl)).congr (and_iff_left trivial)

/-- A traversal fits if every step of it does. -/
theorem mapM {g : α → β} {fits : α → Prop} {l : List α}
    (h : ∀ a ∈ l, Within (f a) (g a) (fits a)) :
    Within (l.mapM f) (l.map g) (∀ a ∈ l, fits a) := by
  induction l with
  | nil => exact (of_ok rfl).congr (by simp)
  | cons a l ih =>
    rw [List.mapM_cons]
    have hrest := (ih fun b hb => h b (List.mem_cons_of_mem _ hb)).map (g a :: ·)
    exact ((h a List.mem_cons_self).bind hrest).congr (by simp)

end Within

/-! ## 3. Numbers and values -/

theorem number_within (limits : Limits) (i : Int) :
    Within (number limits i) (Text.ofInt i) (limits.admits i) := by
  unfold number check
  cases limits.admits i with
  | true => exact (Within.of_ok rfl).congr (by simp)
  | false => exact ⟨fun h => absurd h Bool.false_ne_true, fun _ => .inl rfl⟩

/-- Without any room nothing is shown, and every value needs some. -/
theorem shown_zero (limits : Limits) (v : Value) {t : Text} :
    Within (shown limits 0 v) t (v.height ≤ 0 ∧ ∀ i ∈ v.numbers, limits.admits i) := by
  have hpos : 0 < v.height := by cases v <;> simp [Value.height]
  refine ⟨fun h => absurd h.1 (Nat.not_le_of_gt hpos), fun _ => .inr ?_⟩
  unfold shown
  rfl

mutual

/-- **A value is shown exactly if there is room for it and its numbers are not too long.** -/
theorem shown_within (limits : Limits) : ∀ (room : Nat) (v : Value),
    Within (shown limits room v) v.shown (v.height ≤ room ∧ ∀ i ∈ v.numbers, limits.admits i)
  | 0, v => shown_zero limits v
  | room + 1, .int i => by
    rw [shown, Value.shown]
    exact (number_within limits i).congr (by simp [Value.height, Value.numbers])
  | room + 1, .list l => by
    rw [shown, Value.shown]
    refine ((shownItems_within limits room l).map fun t => '[' :: t ++ [']']).congr ?_
    rw [Value.height, Value.numbers, Nat.succ_le_succ_iff]
  | room + 1, .object ms => by
    rw [shown, Value.shown]
    refine ((shownMembers_within limits room ms).map fun t => '{' :: t ++ ['}']).congr ?_
    rw [Value.height, Value.numbers, Nat.succ_le_succ_iff]
  | room + 1, .null => (Within.of_ok (by unfold shown; rfl)).congr
      (by simp [Value.height, Value.numbers])
  | room + 1, .bool b => (Within.of_ok (by unfold shown; rfl)).congr
      (by simp [Value.height, Value.numbers])
  | room + 1, .real x => (Within.of_ok (by unfold shown; rfl)).congr
      (by simp [Value.height, Value.numbers])
  | room + 1, .text t => (Within.of_ok (by unfold shown; rfl)).congr
      (by simp [Value.height, Value.numbers])

theorem shownItems_within (limits : Limits) (room : Nat) : ∀ l : List Value,
    Within (shownItems limits room l) (Value.shownItems l)
      (Value.heightItems l ≤ room ∧ ∀ i ∈ Value.numbersOfItems l, limits.admits i)
  | [] => by
    rw [shownItems, Value.shownItems]
    exact (Within.of_ok rfl).congr (by simp [Value.heightItems, Value.numbersOfItems])
  | [v] => by
    rw [shownItems, Value.shownItems]
    exact (shown_within limits room v).congr
      (by simp [Value.heightItems, Value.numbersOfItems])
  | v :: w :: r => by
    rw [shownItems, Value.shownItems]
    have hrest := (shownItems_within limits room (w :: r)).map
      fun t => Value.shown v ++ ", ".toList ++ t
    refine ((shown_within limits room v).bind hrest).congr ?_
    rw [and_and_and_comm]
    exact and_congr (by simp only [Value.heightItems, Nat.max_le])
      (by simp only [Value.numbersOfItems, List.forall_mem_append])

theorem shownMembers_within (limits : Limits) (room : Nat) : ∀ ms : List (Text × Value),
    Within (shownMembers limits room ms) (Value.shownMembers ms)
      (Value.heightMembers ms ≤ room ∧ ∀ i ∈ Value.numbersOfMembers ms, limits.admits i)
  | [] => by
    rw [shownMembers, Value.shownMembers]
    exact (Within.of_ok rfl).congr (by simp [Value.heightMembers, Value.numbersOfMembers])
  | [(k, v)] => by
    rw [shownMembers, Value.shownMembers]
    exact ((shown_within limits room v).map fun t => Text.quoted k ++ ": ".toList ++ t).congr
      (by simp [Value.heightMembers, Value.numbersOfMembers])
  | (k, v) :: m :: r => by
    rw [shownMembers, Value.shownMembers]
    have hrest := (shownMembers_within limits room (m :: r)).map
      fun t => Text.quoted k ++ ": ".toList ++ Value.shown v ++ ", ".toList ++ t
    refine ((shown_within limits room v).bind hrest).congr ?_
    rw [and_and_and_comm]
    exact and_congr (by simp only [Value.heightMembers, Nat.max_le])
      (by simp only [Value.numbersOfMembers, List.forall_mem_append])

end

/-! ## 4. Notices -/

/-- **A notice has words exactly if the value that it shows can be shown.** -/
theorem words_within (limits : Limits) (n : Notice) :
    Within (words limits n) n.text (∀ v ∈ n.given?, limits.Shows v) := by
  cases n with
  | unusableMode v =>
    exact ((shown_within limits limits.depth v).map fun t =>
      "unsupported location mode ".toList ++ t ++ ", keeping locations".toList).congr
        (by simp [Notice.given?, Limits.Shows])
  | badThreshold v =>
    exact ((shown_within limits limits.depth v).map fun t =>
      "invalid use threshold ".toList ++ t ++ ", using 2".toList).congr
        (by simp [Notice.given?, Limits.Shows])
  | _ => exact (Within.of_ok rfl).congr (by simp [Notice.given?])

/-! ## 5. Chains -/

theorem nameParam_within (limits : Limits) (value : Text) (index count : Int) :
    Within (nameParam limits value index count) (CiteMarkup.nameParam value index count)
      (needsNoKey value index count ∨ limits.admits index) := by
  unfold nameParam CiteMarkup.nameParam
  cases needsNoKey value index count with
  | true => exact (Within.of_ok rfl).congr (by simp)
  | false => exact ((number_within limits index).map (assignment · value)).congr (by simp)

theorem indexSuffix_within (limits : Limits) (i : Nat) :
    Within (indexSuffix limits i) (CiteMarkup.indexSuffix i) (1 < i → limits.admits i) := by
  unfold indexSuffix CiteMarkup.indexSuffix
  by_cases h : 1 < i
  · rw [if_pos h, if_pos h]
    exact (number_within limits i).congr (by simp [h])
  · rw [if_neg h, if_neg h]
    exact (Within.of_ok rfl).congr (by simp [h])

/-- **The parameters of a chain are written exactly if the positions among them can be.** -/
theorem chainParams_within (limits : Limits) : ∀ (entries : List Entry) (count : Nat),
    Within (chainParams limits count entries)
      (chainParamsFrom (·.index) (fun _ key => key) count entries)
      (∀ i ∈ writtenPositions count entries, limits.admits i)
  | [], _ => (Within.of_ok rfl).congr (by simp [writtenPositions])
  | e :: r, count => by
    have hrest := chainParams_within limits r
    rw [chainParams, chainParamsFrom, writtenPositions]
    cases e.key with
    | some key => exact (hrest count).map (assignment key e.value :: ·)
    | none =>
      dsimp only
      cases e.isName with
      | true =>
        rw [if_pos rfl, if_pos rfl, if_pos rfl]
        have hname := nameParam_within limits e.value e.index count
        cases hkey : needsNoKey e.value e.index count with
        | true =>
          rw [hkey] at hname
          exact (hname.bind ((hrest (count + 1)).map (_ :: ·))).congr (by simp)
        | false =>
          rw [hkey] at hname
          exact (hname.bind ((hrest count).map (_ :: ·))).congr (by simp)
      | false =>
        rw [if_neg Bool.false_ne_true, if_neg Bool.false_ne_true, if_neg Bool.false_ne_true]
        cases e.role.defaultKey? with
        | none => exact hrest count
        | some key =>
          refine ((indexSuffix_within limits e.index).bind
            ((hrest count).map (assignment (key ++ _) e.value :: ·))).congr ?_
          by_cases hlate : 1 < e.index <;> simp [hlate]

theorem writeChain_within (limits : Limits) (template : Text) (entries : List Entry) :
    Within (writeChain? limits template entries) (CiteMarkup.writeChain? template entries)
      (entries.any Entry.isName → ∀ i ∈ writtenPositions 0 entries, limits.admits i) := by
  unfold writeChain? CiteMarkup.writeChain?
  by_cases h : entries.any Entry.isName = true
  · rw [if_pos h, if_pos h]
    exact ((chainParams_within limits entries 0).map fun ps =>
      some (writeTemplate template ps)).congr (by simp [h])
  · rw [if_neg h, if_neg h]
    exact (Within.of_ok rfl).congr (by simp [h])

end Guarded
end CiteMarkup
