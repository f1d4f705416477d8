import CiteMarkup.Proofs.Order.Firsts
/-!
# Lists that gather what a page mentions

A page mentions things in passages: running text cites some, and the list of a group defines some.
The lists are written anew.  The first list of a group gets the things of the group that the page
mentions, without repetitions and in order, and further lists of the group get none
(`rewritten`).  If each list has defined things of its own group only, then the first list of a
group gets the same from the new page (`gathered_again`).
-/

namespace CiteMarkup

/-! ## 1. Passages -/

/-- A part of a page with the things that it mentions. -/
inductive Passage (α γ : Type) where
  /-- Running text. -/
  | cites (things : List α)
  /-- The list of a group. -/
  | defines (group : γ) (things : List α)

namespace Passage

variable {α γ : Type}

/-- The things that the passage mentions. -/
def things : Passage α γ → List α
  | cites xs => xs
  | defines _ xs => xs

/-- The group of a list. -/
def group? : Passage α γ → Option γ
  | cites _ => none
  | defines g _ => some g

end Passage

variable {α γ : Type}

/-- The things that the passages mention, one after the other. -/
def mentions (ps : List (Passage α γ)) : List α := ps.flatMap (·.things)

theorem mentions_append (ps qs : List (Passage α γ)) :
    mentions (ps ++ qs) = mentions ps ++ mentions qs :=
  List.flatMap_append

theorem mentions_cons (p : Passage α γ) (ps : List (Passage α γ)) :
    mentions (p :: ps) = p.things ++ mentions ps :=
  List.flatMap_cons

/-- The things of a group that the passages mention, without repetitions and in order. -/
def gathered [BEq α] (le : α → α → Bool) (isOf : γ → α → Bool)
    (ps : List (Passage α γ)) (g : γ) : List α :=
  sortStable le ((mentions ps).filter (isOf g)).eraseDups

/-- The passages with each first list of a group holding what the group gets, and further lists
of it empty; `served` are the groups that have had their list. -/
def rewritten [DecidableEq γ] (share : γ → List α) :
    (served : List γ) → List (Passage α γ) → List (Passage α γ)
  | _, [] => []
  | served, .cites xs :: ps => .cites xs :: rewritten share served ps
  | served, .defines g _ :: ps =>
    .defines g (if g ∈ served then [] else share g) :: rewritten share (served ++ [g]) ps

section Rewritten

variable [DecidableEq γ] {share : γ → List α} {isOf : γ → α → Bool} {g : γ}
variable {ps qs : List (Passage α γ)} {served : List γ}

theorem rewritten_append : rewritten share served (ps ++ qs) =
    rewritten share served ps ++ rewritten share (served ++ ps.filterMap (·.group?)) qs := by
  induction ps generalizing served with
  | nil => rw [List.filterMap_nil, List.append_nil]; rfl
  | cons p ps ih =>
    cases p with
    | cites xs => rw [List.cons_append, rewritten, ih]; rfl
    | defines h xs =>
      rw [List.cons_append, rewritten, ih, List.append_assoc]
      rfl

/-- New lists get what their groups get. -/
theorem rewritten_new : ∀ {gs served : List γ}, gs.Nodup → (∀ g ∈ gs, g ∉ served) →
    rewritten share served (gs.map fun g => Passage.defines g []) =
      gs.map fun g => .defines g (share g)
  | [], _, _, _ => rfl
  | g :: gs, served, hn, hserved => by
    obtain ⟨hg, hgs⟩ := List.nodup_cons.mp hn
    have hrest : ∀ h ∈ gs, h ∉ served ++ [g] := by
      intro h hh hmem
      rcases List.mem_append.mp hmem with hmem | hmem
      · exact hserved h (List.mem_cons_of_mem _ hh) hmem
      · exact hg (List.mem_singleton.mp hmem ▸ hh)
    rw [List.map_cons, rewritten, rewritten_new hgs hrest, if_neg (hserved g List.mem_cons_self)]
    rfl

/-- The first list of a group, with no list of it in front. -/
theorem exists_first_list (hg : ∃ p ∈ ps, p.group? = some g) :
    ∃ front old behind, ps = front ++ .defines g old :: behind ∧
      ∀ p ∈ front, p.group? ≠ some g := by
  obtain ⟨p, hp, hpg⟩ := hg
  have hfound : (ps.find? fun q => q.group? = some g).isSome = true :=
    List.find?_isSome.mpr ⟨p, hp, decide_eq_true hpg⟩
  obtain ⟨q, hq⟩ := Option.isSome_iff_exists.mp hfound
  obtain ⟨hqg, front, behind, hparts, hfront⟩ := List.find?_eq_some_iff_append.mp hq
  have hno : ∀ r ∈ front, r.group? ≠ some g := fun r hr => by simpa using hfront r hr
  cases q with
  | cites xs => cases of_decide_eq_true hqg
  | defines h old =>
    obtain rfl : h = g := Option.some.inj (of_decide_eq_true hqg)
    exact ⟨front, old, behind, hparts, hno⟩

/-- The first list of a group gets what the group gets. -/
theorem rewritten_first_list {old : List α} (hno : ∀ p ∈ ps, p.group? ≠ some g) :
    rewritten share [] (ps ++ .defines g old :: qs) = rewritten share [] ps ++
      .defines g (share g) :: rewritten share (ps.filterMap (·.group?) ++ [g]) qs := by
  have hserved : g ∉ ps.filterMap (·.group?) := by
    intro hmem
    obtain ⟨p, hp, hpg⟩ := List.mem_filterMap.mp hmem
    exact hno p hp hpg
  rw [rewritten_append, List.nil_append, rewritten, if_neg hserved]

/-! ## 2. Things of other groups -/

/-- No list defines a thing of the group `g` but those of the group. -/
def KeepsApart (isOf : γ → α → Bool) (g : γ) (ps : List (Passage α γ)) : Prop :=
  ∀ p ∈ ps, ∀ h, p.group? = some h → h ≠ g → ∀ x ∈ p.things, isOf g x = false

variable (hshare : ∀ h, h ≠ g → ∀ x ∈ share h, isOf g x = false)
include hshare

/-- What the list of another group gets does not matter to the group. -/
theorem filter_share {h : γ} (hne : h ≠ g) :
    (if h ∈ served then [] else share h).filter (isOf g) = [] := by
  split
  · rfl
  · exact List.filter_eq_nil_iff.mpr fun x hx => by simp [hshare h hne x hx]

/-- Without a list of the group the text mentions what it has mentioned. -/
theorem filter_mentions_rewritten (hps : KeepsApart isOf g ps)
    (hno : ∀ p ∈ ps, p.group? ≠ some g) :
    (mentions (rewritten share served ps)).filter (isOf g) = (mentions ps).filter (isOf g) := by
  induction ps generalizing served with
  | nil => rfl
  | cons p ps ih =>
    have hrest := fun rest => @ih rest
      (fun q hq => hps q (List.mem_cons_of_mem _ hq)) fun q hq => hno q (List.mem_cons_of_mem _ hq)
    cases p with
    | cites xs =>
      rw [rewritten, mentions_cons, mentions_cons, List.filter_append, List.filter_append, hrest]
    | defines h xs =>
      have hne : h ≠ g := fun heq => hno _ List.mem_cons_self (congrArg some heq)
      have hold : xs.filter (isOf g) = [] :=
        List.filter_eq_nil_iff.mpr fun x hx => by
          simp [hps _ List.mem_cons_self h rfl hne x hx]
      rw [rewritten, mentions_cons, mentions_cons, List.filter_append, List.filter_append, hrest]
      simp only [Passage.things, filter_share hshare hne, hold]

/-- Behind the list of the group nothing of it is mentioned that has not been. -/
theorem filter_mentions_rewritten_subset (hg : g ∈ served) :
    (mentions (rewritten share served ps)).filter (isOf g) ⊆ (mentions ps).filter (isOf g) := by
  induction ps generalizing served with
  | nil => exact List.Subset.refl _
  | cons p ps ih =>
    cases p with
    | cites xs =>
      rw [rewritten, mentions_cons, mentions_cons, List.filter_append, List.filter_append]
      exact List.append_subset.mpr ⟨List.subset_append_left _ _,
        List.subset_append_of_subset_right _ (ih hg)⟩
    | defines h xs =>
      have hnone : (if h ∈ served then [] else share h).filter (isOf g) = [] := by
        by_cases hne : h = g
        · rw [if_pos (hne ▸ hg)]
          rfl
        · exact filter_share hshare hne
      rw [rewritten, mentions_cons, mentions_cons, List.filter_append, List.filter_append]
      simp only [Passage.things, hnone, List.nil_append]
      exact List.subset_append_of_subset_right _ (ih (List.mem_append_left _ hg))

end Rewritten

/-! ## 3. Gathering again -/

section Again

variable [BEq α] [LawfulBEq α] {le : α → α → Bool} {isOf : γ → α → Bool}
variable {ps : List (Passage α γ)} {g h : γ}

theorem isOf_of_mem_gathered {x : α} (hx : x ∈ gathered le isOf ps h) : isOf h x = true :=
  (List.mem_filter.mp (List.mem_eraseDups.mp (mem_sortStable.mp hx))).2

/-- **What the first list of a group gets, it gets again** from the page on which the lists have
been written anew. -/
theorem gathered_again [DecidableEq γ] (total : ∀ a b, le a b ∨ le b a)
    (trans : ∀ a b c, le a b → le b c → le a c)
    (happart : ∀ g h x, isOf g x = true → isOf h x = true → g = h) (hps : KeepsApart isOf g ps)
    (hg : ∃ p ∈ ps, p.group? = some g) :
    gathered le isOf (rewritten (gathered le isOf ps) [] ps) g = gathered le isOf ps g := by
  obtain ⟨front, old, behind, hparts, hno⟩ := exists_first_list hg
  have hshare : ∀ h, h ≠ g → ∀ x ∈ gathered le isOf ps h, isOf g x = false := by
    intro h hne x hx
    rw [Bool.eq_false_iff]
    intro hgx
    exact hne (happart h g x (isOf_of_mem_gathered hx) hgx)
  have hall : (gathered le isOf ps g).filter (isOf g) = gathered le isOf ps g :=
    List.filter_eq_self.mpr fun _ => isOf_of_mem_gathered
  have hold : (mentions ps).filter (isOf g) = (mentions front).filter (isOf g) ++
      (mentions (.defines g old :: behind)).filter (isOf g) := by
    rw [hparts, mentions_append, List.filter_append]
  -- in front of the list there is what has been there, and then what the group gets
  have hfirst : (mentions (rewritten (gathered le isOf ps) [] front)).filter (isOf g) = _ :=
    filter_mentions_rewritten hshare
      (fun r hr => hps r (hparts ▸ List.mem_append_left _ hr)) hno
  have hsplit : rewritten (gathered le isOf ps) [] ps = _ :=
    (congrArg _ hparts).trans (rewritten_first_list hno)
  have hnew : (mentions (rewritten (gathered le isOf ps) [] ps)).filter (isOf g) =
      (mentions front).filter (isOf g) ++ (gathered le isOf ps g ++
        (mentions (rewritten (gathered le isOf ps) (front.filterMap (·.group?) ++ [g])
          behind)).filter (isOf g)) := by
    rw [hsplit, mentions_append, mentions_cons, List.filter_append, List.filter_append, hfirst]
    simp only [Passage.things, hall]
  -- behind it nothing is new
  have hbehind : (mentions (rewritten (gathered le isOf ps) (front.filterMap (·.group?) ++ [g])
      behind)).filter (isOf g) ⊆ (mentions front).filter (isOf g) ++
        (mentions (.defines g old :: behind)).filter (isOf g) := by
    refine List.subset_append_of_subset_right _ ?_
    rw [mentions_cons, List.filter_append]
    refine List.subset_append_of_subset_right _ ?_
    exact filter_mentions_rewritten_subset hshare
      (List.mem_append_right _ (List.mem_singleton_self g))
  have hagain := sortStable_again total trans hbehind
  rw [gathered, hnew]
  rw [← hold] at hagain
  exact hagain

end Again

end CiteMarkup
