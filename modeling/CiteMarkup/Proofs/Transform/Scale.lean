import CiteMarkup.Proofs.Transform.Located
import CiteMarkup.Proofs.Transform.Silence
/-!
# The location modes form a scale

A threshold of uses puts the fewer bodies into lists the higher it is
(`Model.place_threshold_anti`).  At the lower end of the scale stands the mode that puts all
bodies into lists, at the upper end the mode that puts them into the text.  At both ends the
mode and the threshold give the same result (`locations_form_a_scale`): they part only at
references without a body, whose locations show nowhere.
-/

namespace CiteMarkup

variable {r : Record} {uses : List Occurrence} {n k : Nat}

/-! ## 1. One reference -/

/-- The notices that are warnings. -/
def warningsOf (notices : List Notice) : List Text :=
  (notices.filter (·.level = .warning)).map (·.text)

theorem warningsOf_flatMap {α : Type} (l : List α) (f : α → List Notice) :
    warningsOf (l.flatMap f) = l.flatMap fun a => warningsOf (f a) := by
  rw [warningsOf, List.filter_flatMap, List.map_flatMap]
  rfl

/-- A reference with a name and a body is listed under a threshold of one, as if all were. -/
theorem locate_threshold_one (hbody : r.content?.isSome) :
    (locate (.threshold 1) r uses).1 = (locate .allListed r uses).1 := by
  unfold locate
  cases r.name with
  | none => rfl
  | some name =>
    cases uses with
    | nil => simp [Mode.wish, hbody]
    | cons occ uses => simp [Mode.wish]

/-- To list what is used gives no warning: only the definition of what is not used is kept. -/
theorem warnings_locate_threshold_one :
    warningsOf (locate (.threshold 1) r uses).2 = warningsOf (locate .allListed r uses).2 := by
  unfold locate
  cases r.name with
  | none => rfl
  | some name =>
    cases uses with
    | cons occ uses => simp [Mode.wish]
    | nil =>
      cases hbody : r.content?.isSome
      · simp [Mode.wish]
      · simp [Mode.wish, warningsOf, Notice.level]

/-- Below the threshold a reference stands in the text, as if all did. -/
theorem locate_below (h : uses.length < n) :
    locate (.threshold n) r uses = locate .allInline r uses := by
  have hwish : (Mode.threshold n).wish r uses.length = Mode.allInline.wish r uses.length :=
    if_neg (by omega)
  rw [locate, locate, hwish]

/-- What is listed under a threshold is listed under all that are lower. -/
theorem locate_threshold_anti (hle : n ≤ k)
    (hlisted : (locate (.threshold k) r uses).1 = .listDefined) :
    (locate (.threshold n) r uses).1 = .listDefined := by
  by_cases hk : k ≤ uses.length
  · unfold locate at hlisted ⊢
    have hwish : ∀ i ≤ uses.length, (Mode.threshold i).wish r uses.length = .listDefined :=
      fun i hi => if_pos hi
    rw [hwish k hk] at hlisted
    rw [hwish n (by omega)]
    exact hlisted
  · by_cases hn : n ≤ uses.length
    · unfold locate at hlisted ⊢
      have hwish : (Mode.threshold n).wish r uses.length = .listDefined := if_pos hn
      rw [hwish]
      cases hname : r.name with
      | none => simpa [hname] using hlisted
      | some name => rfl
    · rw [locate_below (by omega)] at hlisted ⊢
      exact hlisted

namespace Model

variable {m : Model} {p : Page} {names : List Text} {o : Options} {mode mode' : Mode}

/-! ## 2. Models -/

/-- **The higher the threshold, the fewer are listed**: a record that a threshold puts into a
list is put there, as the same record, by each threshold that is lower. -/
theorem place_threshold_anti (m : Model) (hle : n ≤ k) (hr : r ∈ (m.place (.threshold k)).1.records)
    (hself : r.canonical = r.index) (hlisted : r.location = .listDefined) :
    r ∈ (m.place (.threshold n)).1.records := by
  rw [place_records] at hr ⊢
  obtain ⟨s, hs, rfl⟩ := List.mem_map.mp hr
  have hs' : s.canonical = s.index := by
    obtain ⟨l, hl⟩ := m.locateRecord_eq (.threshold k) s
    rw [hl] at hself
    exact hself
  refine List.mem_map.mpr ⟨s, hs, ?_⟩
  simp only [locateRecord, if_pos hs'] at hlisted ⊢
  rw [hlisted, locate_threshold_anti hle hlisted]

/-- Modes that agree on the references with a body have one plan. -/
theorem plan_place_congr (h : m.Accounts p names) (hs : m.Settled)
    (hagree : ∀ r ∈ m.records, r.canonical = r.index → r.content?.isSome →
      (locate mode r (m.usesOf r)).1 = (locate mode' r (m.usesOf r)).1)
    (hmode : mode ≠ .keep) (hmode' : mode' ≠ .keep) :
    (m.place mode).1.plan o mode = (m.place mode').1.plan o mode' := by
  rw [place_eq_relocated, place_eq_relocated]
  refine plan_relocated_congr h hs (fun r hr hself hbody => ?_) hmode hmode'
  rw [locationIn, locationIn, locateRecord, locateRecord, if_pos hself, if_pos hself]
  exact hagree r hr hself hbody

/-- Modes that warn of the same about each record warn of the same about the model. -/
theorem warnings_place_congr
    (hagree : ∀ r ∈ m.records, r.canonical = r.index →
      warningsOf (locate mode r (m.usesOf r)).2 = warningsOf (locate mode' r (m.usesOf r)).2) :
    warningsOf (m.place mode).2 = warningsOf (m.place mode').2 := by
  rw [place, place, List.flatMap_map, List.flatMap_map, warningsOf_flatMap, warningsOf_flatMap]
  refine List.flatMap_congr fun r hr => ?_
  unfold locateRecord
  split
  · rename_i hself
    exact hagree r hr hself
  · rfl

end Model

/-! ## 3. Runs -/

/-- Two runs with the same result for their caller: the same text, the same changes and the
same warnings. -/
structure Run.SameResult (r s : Run) : Prop where
  text : r.text = s.text
  changes : r.changes = s.changes
  warnings : r.warnings = s.warnings

theorem warnings_eq (o : Options) (title : Option Text) (t : Text) :
    (transform o title t).warnings =
      warningsOf (Mode.ofSetting o.location).2 ++
        warningsOf ((transform o title t).unplaced.place (transform o title t).mode).2 ++
        warningsOf ((transform o title t).placed.plan o (transform o title t).mode).2 ++
        warningsOf (((if o.useChains = some true then
          some (joinCitations (transform o title t).edited o.listNames.toList)
            else none).map (·.2)).getD []) := by
  have henter : ∀ j : Journal, (j.enter []).warnings = j.warnings := fun _ => rfl
  have hnew : ({ title := title } : Journal).warnings = [] := rfl
  rw [Run.warnings, journal_eq, henter, Journal.warnings_noteAll, Journal.warnings_noteAll,
    Journal.warnings_noteAll, hnew, List.nil_append, List.filter_append, List.map_append]
  rfl

/-- A plan looks at the mode, not at the setting that has led to it. -/
theorem Model.plan_location (m : Model) (o : Options) (s : Setting) (mode : Mode) :
    m.plan { o with location := s } mode = m.plan o mode := by
  cases mode <;> rfl

/-- Settings that lead to one plan and to the same warnings on the way there have the same
result. -/
theorem sameResult_of_plan {o : Options} {title : Option Text} {t : Text} {s s' : Setting}
    {mode mode' : Mode} (hset : Mode.ofSetting s = (mode, []))
    (hset' : Mode.ofSetting s' = (mode', []))
    (hwarn : warningsOf ((transform o title t).unplaced.place mode).2 =
      warningsOf ((transform o title t).unplaced.place mode').2)
    (hplan : ((transform o title t).unplaced.place mode).1.plan o mode =
      ((transform o title t).unplaced.place mode').1.plan o mode') :
    (transform { o with location := s } title t).SameResult
      (transform { o with location := s' } title t) := by
  have hmode : (transform { o with location := s } title t).mode = mode :=
    congrArg Prod.fst hset
  have hmode' : (transform { o with location := s' } title t).mode = mode' :=
    congrArg Prod.fst hset'
  have hplaced : ∀ s, (transform { o with location := s } title t).placed =
      ((transform o title t).unplaced.place (transform { o with location := s } title t).mode).1 :=
    fun _ => rfl
  -- what the runs plan, and what they say about it
  have hplans : (transform { o with location := s } title t).placed.plan
        { o with location := s } (transform { o with location := s } title t).mode =
      (transform { o with location := s' } title t).placed.plan
        { o with location := s' } (transform { o with location := s' } title t).mode := by
    rw [Model.plan_location _ o s, Model.plan_location _ o s', hplaced, hplaced, hmode, hmode',
      hplan]
  have hedits : (transform { o with location := s } title t).plan =
      (transform { o with location := s' } title t).plan := by
    rw [plan_eq, plan_eq, hplans]
  have hedited : (transform { o with location := s } title t).edited =
      (transform { o with location := s' } title t).edited :=
    congrArg (fun plan : Plan => Edit.applyAll t plan.edits) hedits
  constructor
  · exact congrArg (fun u => ((if o.useChains = some true then
      some (joinCitations u o.listNames.toList) else none).map (·.1)).getD u) hedited
  · exact congrArg (fun plan : Plan => Changes.mk (transform o title t).renames
      (((transform o title t).deduped.map (·.2)).getD []) plan.movedInline plan.movedListed) hedits
  · rw [warnings_eq, warnings_eq, hplans, hedited, hmode, hmode']
    change warningsOf (Mode.ofSetting s).2 ++
        warningsOf ((transform o title t).unplaced.place mode).2 ++ _ ++ _ =
      warningsOf (Mode.ofSetting s').2 ++
        warningsOf ((transform o title t).unplaced.place mode').2 ++ _ ++ _
    rw [hset, hset', hwarn]

/-- **The location modes form a scale with the thresholds between its ends.**  A threshold of
one gives the same result as the mode that puts all bodies into lists, a threshold above the
uses of every reference the same as the mode that puts them into the text, and the higher the
threshold, the fewer references it puts into lists. -/
theorem locations_form_a_scale (o : Options) (title : Option Text) (t : Text) :
    let under (s : Setting) := transform { o with location := s } title t
    let unplaced := (transform o title t).unplaced
    (under (.threshold (.int 1))).SameResult (under (.value (.text "all_ldr".toList))) ∧
      (∀ n : Int, 1 ≤ n →
        (∀ r ∈ unplaced.records, r.canonical = r.index → (unplaced.usesOf r).length < n) →
        (under (.threshold (.int n))).SameResult (under (.value (.text "all_inline".toList)))) ∧
      ∀ n k : Nat, n ≤ k → ∀ r ∈ (unplaced.place (.threshold k)).1.records,
        r.canonical = r.index → r.location = .listDefined →
          r ∈ (unplaced.place (.threshold n)).1.records := by
  intro under unplaced
  have h := accounts_unplaced o title t
  have hs := settled_unplaced o title t
  refine ⟨?_, fun n hn hbelow => ?_, fun n k hle r hr hself hlisted =>
    Model.place_threshold_anti unplaced hle hr hself hlisted⟩
  · have hone : Mode.ofSetting (.threshold (.int 1)) = (.threshold 1, []) := rfl
    have hall : Mode.ofSetting (.value (.text "all_ldr".toList)) = (.allListed, []) := rfl
    refine sameResult_of_plan hone hall ?_ ?_
    · exact Model.warnings_place_congr fun r _ _ => warnings_locate_threshold_one
    · refine Model.plan_place_congr h hs (fun r _ _ hbody => ?_) (by simp) (by simp)
      exact locate_threshold_one hbody
  · have habove : Mode.ofSetting (.threshold (.int n)) = (.threshold n.toNat, []) := if_pos hn
    have hall : Mode.ofSetting (.value (.text "all_inline".toList)) = (.allInline, []) := rfl
    have hlocate : ∀ r ∈ unplaced.records, r.canonical = r.index →
        locate (.threshold n.toNat) r (unplaced.usesOf r) =
          locate .allInline r (unplaced.usesOf r) := fun r hr hself => by
      have hr := hbelow r hr hself
      exact locate_below (by omega)
    refine sameResult_of_plan habove hall ?_ ?_
    · exact Model.warnings_place_congr fun r hr hself => by rw [hlocate r hr hself]
    · refine Model.plan_place_congr h hs (fun r hr hself _ => ?_) (by simp) (by simp)
      rw [hlocate r hr hself]

/-- A reference with two uses: a threshold of three keeps it in the text, and what a threshold
of two puts into a list a threshold of one does as well. -/
theorem scale_of_two_uses :
    let o : Options := {}
    let t := "<ref name=\"a\">body</ref><ref name=\"a\"/>".toList
    let under (s : Setting) := transform { o with location := s } none t
    let unplaced := (transform o none t).unplaced
    (∀ r ∈ unplaced.records, r.canonical = r.index → ((unplaced.usesOf r).length : Int) < 3) ∧
      (under (.threshold (.int 3))).SameResult (under (.value (.text "all_inline".toList))) ∧
      ∃ r ∈ (unplaced.place (.threshold 2)).1.records, r.canonical = r.index ∧
        r.location = .listDefined ∧ r ∈ (unplaced.place (.threshold 1)).1.records := by
  intro o t under unplaced
  have hbelow : ∀ r ∈ unplaced.records, r.canonical = r.index →
      ((unplaced.usesOf r).length : Int) < 3 := by decide +kernel
  obtain ⟨r, hr, hself, hlisted⟩ : ∃ r ∈ (unplaced.place (.threshold 2)).1.records,
      r.canonical = r.index ∧ r.location = .listDefined := by decide +kernel
  obtain ⟨-, habove, hanti⟩ := locations_form_a_scale o none t
  exact ⟨hbelow, habove 3 (by decide) hbelow, r, hr, hself, hlisted,
    hanti 1 2 (by decide) r hr hself hlisted⟩

/-- No reference at all: a threshold of zero is above the uses of all of them, but it is no
threshold, and a warning says so. -/
theorem threshold_without_uses :
    let under (s : Setting) := transform { location := s } none []
    let unplaced := (transform {} none []).unplaced
    (∀ r ∈ unplaced.records, r.canonical = r.index → ((unplaced.usesOf r).length : Int) < 0) ∧
      (under (.threshold (.int 0))).warnings ≠
        (under (.value (.text "all_inline".toList))).warnings := by
  decide +kernel

end CiteMarkup
