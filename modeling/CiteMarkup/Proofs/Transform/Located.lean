import CiteMarkup.Proofs.Transform.Accounts
import CiteMarkup.Transform.Plan
/-!
# What the location of a reference changes

Two placements of one model differ in the locations of its records and in nothing else
(`Model.relocated`).  A location is looked at for two things, where the body of its reference is
written and whether that is a move, and both need a body.  So placements that agree on the
references with a body have the same plan (`Model.plan_relocated_congr`).
-/

namespace CiteMarkup

/-- The record with the location that a placement gives it. -/
def Record.putBy (place : Record → Location) (r : Record) : Record :=
  { r with location := place r }

namespace Model

/-- The model with the locations that a placement gives. -/
def relocated (m : Model) (place : Record → Location) : Model :=
  { m with records := m.records.map (Record.putBy place) }

variable {m : Model} {p : Page} {names : List Text} {o : Options} {mode mode' : Mode}
variable {r s : Record} {place place' : Record → Location}

/-! ## 1. Placing -/

/-- The location that a mode gives to a record. -/
def locationIn (m : Model) (mode : Mode) (r : Record) : Location :=
  (m.locateRecord mode r).1.location

theorem locateRecord_fst (m : Model) (mode : Mode) (r : Record) :
    (m.locateRecord mode r).1 = r.putBy (m.locationIn mode) := by
  obtain ⟨l, hl⟩ := m.locateRecord_eq mode r
  rw [Record.putBy, locationIn, hl]

/-- Placing gives locations. -/
theorem place_eq_relocated (m : Model) (mode : Mode) :
    (m.place mode).1 = m.relocated (m.locationIn mode) := by
  have hrecords : (m.place mode).1.records = (m.relocated (m.locationIn mode)).records := by
    rw [place_records, relocated]
    exact List.map_congr_left fun r _ => locateRecord_fst m mode r
  exact congrArg (fun rs : List Record => { m with records := rs }) hrecords

/-! ## 2. Merges -/

section Relocated

variable (m place)

theorem record?_relocated (i : Nat) :
    (m.relocated place).record? i = (m.record? i).map (Record.putBy place) :=
  List.find?_map

/-- A location does not change where the steps along the merges lead. -/
theorem canonicalFrom_relocated (n : Nat) (r : Record) :
    (m.relocated place).canonicalFrom n (r.putBy place) = (m.canonicalFrom n r).putBy place := by
  induction n generalizing r with
  | zero => rfl
  | succ n ih =>
    have hpoint : (r.putBy place).canonical = r.canonical := rfl
    have hindex : (r.putBy place).index = r.index := rfl
    rw [canonicalFrom, canonicalFrom, record?_relocated, hpoint, hindex]
    by_cases hself : r.canonical = r.index
    · rw [if_pos hself, if_pos hself]
    · rw [if_neg hself, if_neg hself]
      cases m.record? r.canonical with
      | none => rfl
      | some s => exact ih s

theorem canonical_relocated (r : Record) :
    (m.relocated place).canonical (r.putBy place) = (m.canonical r).putBy place := by
  rw [canonical, canonical, ← canonicalFrom_relocated, relocated, List.length_map]

theorem merged_relocated (r : Record) :
    (m.relocated place).merged (r.putBy place) = (m.merged r).map (Record.putBy place) := by
  have hkept : ∀ s, ((m.relocated place).canonical (s.putBy place)).index =
      (m.canonical s).index := fun s => by
    rw [canonical_relocated]
    rfl
  refine List.filter_map.trans (congrArg _ (List.filter_congr fun s _ => ?_))
  exact congrArg (fun i => decide (i = r.index)) (hkept s)

theorem usesOf_relocated (r : Record) :
    (m.relocated place).usesOf (r.putBy place) = m.usesOf r := by
  rw [usesOf, merged_relocated, List.flatMap_map]
  rfl

/-! ## 3. Chains -/

theorem targets_relocated (c : Chain) : (m.relocated place).targets c = m.targets c := by
  refine List.ext_getElem? fun i => ?_
  have hcited : ∀ j, (m.relocated place).citedBy? c.id j =
      (m.citedBy? c.id j).map (Record.putBy place) := fun _ => List.find?_map
  rw [targets, targets, List.getElem?_mapIdx, List.getElem?_mapIdx, hcited]
  cases m.citedBy? c.id i with
  | none => rfl
  | some r =>
    simp only [Option.map_some, canonical_relocated]
    rfl

theorem chainEdits_relocated (o : Options) (c : Chain) :
    (m.relocated place).chainEdits o c = m.chainEdits o c := by
  rw [chainEdits, chainEdits, targets_relocated]
  rfl

end Relocated

/-! ## 4. Bodies that move -/

/-- Nothing is merged into a record that is like no other. -/
theorem eq_of_mem_merged_of_unlike (h : m.Accounts p names) (hs : m.Settled)
    (hr : r ∈ m.records) (hlike : r.likeness? = none) (hm : s ∈ m.merged r) : s = r := by
  obtain ⟨hsm, hindex⟩ := List.mem_filter.mp hm
  have hindex : (m.canonical s).index = r.index := of_decide_eq_true hindex
  rcases hs s hsm with hself | ⟨u, hu, huself, hpoint, hlike', hsome⟩
  · rw [canonical_self hself] at hindex
    exact h.eq_of_index_eq hsm hr hindex
  · rw [h.canonical_of_points hsm hu huself hpoint] at hindex
    obtain rfl := h.eq_of_index_eq hu hr hindex
    rw [← hlike', hlike] at hsome
    cases hsome

/-- A record without a body has no definition that shows anything. -/
theorem visibleBody?_of_content? (hbody : r.content? = none) :
    r.listed.any (·.visibleBody?.isSome) = false ∧
      r.definitions.any (·.visibleBody?.isSome) = false := by
  rw [Record.content?, List.findSome?_eq_none_iff] at hbody
  have hnone : ∀ occ ∈ r.definitions ++ r.listed, occ.visibleBody? = none := fun occ hocc =>
    hbody occ ((mem_sortByStart _ _).mpr hocc)
  constructor
  · refine List.any_eq_false.mpr fun occ hocc => ?_
    simp [hnone occ (List.mem_append_right _ hocc)]
  · refine List.any_eq_false.mpr fun occ hocc => ?_
    simp [hnone occ (List.mem_append_left _ hocc)]

/-- What moving does to a record depends on its own location and on no other. -/
theorem moveRecord_relocated (r : Record) :
    (m.relocated place).moveRecord o (r.putBy place) = m.moveRecord o (r.putBy place) := by
  have hmerged : m.merged (r.putBy place) = m.merged r := rfl
  have huses : m.usesOf (r.putBy place) = m.usesOf r := rfl
  simp only [moveRecord, usesOf_relocated, merged_relocated, List.any_map, hmerged, huses]
  rfl

/-- Without a body a tag reads the same, whether it is to hold the body or not. -/
theorem movedUse?_bodiless (hbody : r.content? = none) (holds : Bool) :
    o.movedUse? r holds = o.movedUse? r false := by
  rw [Options.movedUse?, Options.movedUse?, hbody]
  cases r.name <;> rfl

theorem moveUses_bodiless (hbody : r.content? = none) (tags : List Occurrence) :
    m.moveUses o (r.putBy place) tags = m.moveUses o (r.putBy place') tags := by
  rw [moveUses, moveUses]
  refine congrArg List.flatten (congrArg (List.mapIdx · tags) ?_)
  funext i occ
  have hput : ∀ q : Record → Location, (r.putBy q).content? = none := fun _ => hbody
  rw [movedUse?_bodiless (hput place), movedUse?_bodiless (hput place')]
  rfl

/-- The location of a record without a body shows nowhere. -/
theorem moveRecord_bodiless (h : m.Accounts p names) (hs : m.Settled) (hr : r ∈ m.records)
    (hbody : r.content? = none) :
    m.moveRecord o (r.putBy place) = m.moveRecord o (r.putBy place') := by
  have hlike : r.likeness? = none := by
    rw [Record.likeness?, hbody]
    cases r.name <;> rfl
  obtain ⟨hnoneListed, hnoneDefined⟩ := visibleBody?_of_content? hbody
  have hlisted : ((m.merged r).any fun s => s.listed.any (·.visibleBody?.isSome)) = false :=
    List.any_eq_false.mpr fun s hm => by
      rw [eq_of_mem_merged_of_unlike h hs hr hlike hm, hnoneListed]
      exact Bool.false_ne_true
  have hinline : ((m.merged r).any fun s => s.definitions.any (·.visibleBody?.isSome)) = false :=
    List.any_eq_false.mpr fun s hm => by
      rw [eq_of_mem_merged_of_unlike h hs hr hlike hm, hnoneDefined]
      exact Bool.false_ne_true
  have hmerged : ∀ q : Record → Location, m.merged (r.putBy q) = m.merged r := fun _ => rfl
  have huses : ∀ q : Record → Location, m.usesOf (r.putBy q) = m.usesOf r := fun _ => rfl
  have htags : ∀ tags, m.moveUses o (r.putBy place) tags = m.moveUses o (r.putBy place') tags :=
    moveUses_bodiless hbody
  simp only [moveRecord, hmerged, huses, hlisted, hinline, Bool.and_false, Bool.false_eq_true,
    if_false, htags]
  rfl

/-! ## 5. Plans -/

/-- A plan that moves bodies is the same in every mode. -/
theorem plan_of_ne_keep (hmode : mode ≠ .keep) (hmode' : mode' ≠ .keep) :
    m.plan o mode = m.plan o mode' := by
  cases mode <;> cases mode' <;> first | rfl | exact absurd rfl hmode | exact absurd rfl hmode'

/-- The location of a record without a body puts nothing into a list. -/
theorem definition?_relocated
    (hplace : r.canonical = r.index → r.content?.isSome → place r = place' r) :
    (r.putBy place).definition? = (r.putBy place').definition? := by
  have hput : ∀ q : Record → Location, (r.putBy q).definition? =
      if r.canonical = r.index && q r = .listDefined then
        r.content?.map fun body => ⟨r.name, r.group, body⟩ else none := fun _ => rfl
  rw [hput, hput]
  by_cases hself : r.canonical = r.index
  · cases hbody : r.content? with
    | none => simp
    | some c => rw [hplace hself (by rw [hbody]; rfl)]
  · simp [hself]

/-- **Placements that agree on the references with a body have one plan.** -/
theorem plan_relocated_congr (h : m.Accounts p names) (hs : m.Settled)
    (hplace : ∀ r ∈ m.records, r.canonical = r.index → r.content?.isSome → place r = place' r)
    (hmode : mode ≠ .keep) (hmode' : mode' ≠ .keep) :
    (m.relocated place).plan o mode = (m.relocated place').plan o mode' := by
  have hmoved : ∀ r ∈ m.records, (m.relocated place).moveRecord o (r.putBy place) =
      (m.relocated place').moveRecord o (r.putBy place') := by
    intro r hr
    rw [moveRecord_relocated, moveRecord_relocated]
    by_cases hself : r.canonical = r.index
    · cases hbody : r.content? with
      | none => exact moveRecord_bodiless h hs hr hbody
      | some c =>
        rw [Record.putBy, Record.putBy, hplace r hr hself (by rw [hbody]; rfl)]
    · rw [moveRecord, moveRecord]
      exact (if_neg hself).trans (if_neg hself).symm
  have hentries : (m.relocated place).listEntries = (m.relocated place').listEntries := by
    rw [listEntries, listEntries, relocated, relocated, List.filterMap_map, List.filterMap_map]
    refine List.filterMap_congr fun r hr => ?_
    exact definition?_relocated (hplace r hr)
  have hall : ((m.relocated place).records.map ((m.relocated place).moveRecord o)) =
      (m.relocated place').records.map ((m.relocated place').moveRecord o) := by
    rw [relocated, relocated, List.map_map, List.map_map]
    exact List.map_congr_left hmoved
  have hchains : (m.relocated place).chains.map ((m.relocated place).chainEdits o) =
      (m.relocated place').chains.map ((m.relocated place').chainEdits o) :=
    List.map_congr_left fun c _ =>
      (chainEdits_relocated m place o c).trans (chainEdits_relocated m place' o c).symm
  have hinline : ∀ (q : Record → Location) (moving : Mode), moving ≠ .keep →
      (m.relocated q).plan o moving = (m.relocated q).plan o .allInline :=
    fun _ _ hmoving => plan_of_ne_keep hmoving (by decide)
  rw [hinline place mode hmode, hinline place' mode' hmode']
  simp only [plan, hall, hchains, hentries]
  rfl

end Model

end CiteMarkup
