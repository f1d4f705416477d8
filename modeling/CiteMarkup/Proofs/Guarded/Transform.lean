import CiteMarkup.Guarded.Transform
import CiteMarkup.Proofs.Guarded.Chain
import CiteMarkup.Proofs.Transform.Lists
/-!
# What stops a transform

Each guard of a transform holds because of what an earlier stage has established: new names
are not empty, two references are alike only if both have names, the records of a run have
numbers of their own and point at records that stand for themselves (`Model.Accounts`,
`Model.Settled`), and the lists of the model are invocations of the page.  What is left are
the limits of writing.  So a guarded transform has a result, the one of the transform, for
every text and all options for which no setting is too deep or too long to be shown and no
position too long to be written (`FitsLimits`), and for no others (`stops_only_at_limits`).
-/

namespace CiteMarkup.Guarded

variable {limits : Limits} {m : Model} {p : Page} {listNames : List Text} {o : Options}
variable {mode : Mode} {r : Record}

/-! ## 1. Renaming -/

theorem withName_ok {name : Text} (h : name ≠ []) (r : Record) :
    withName r name = .ok (r.withName name) := by
  rw [withName, identity_ok h]
  rfl

/-- **New names are not empty.** -/
theorem renameOne_ok (names nameless : Renaming) (n : Nat) (r : Record) :
    renameOne names nameless n r = .ok (CiteMarkup.renameOne names nameless n r) := by
  unfold renameOne CiteMarkup.renameOne
  cases r.name with
  | some old =>
    cases newNameOf? names r with
    | none => rfl
    | some new =>
      cases new with
      | none => rfl
      | some new =>
        dsimp only
        by_cases hskip : (new.isEmpty || new = old) = true
        · rw [if_pos hskip, if_pos hskip]
          rfl
        · have hne : new ≠ [] := by
            rintro rfl
            exact hskip rfl
          rw [if_neg hskip, if_neg hskip, withName_ok hne]
          rfl
  | none =>
    cases nameless.get? r.key with
    | none => rfl
    | some new =>
      dsimp only
      cases hnew : new.bind Text.nonempty? with
      | none => rfl
      | some new =>
        obtain ⟨_, -, hnew⟩ := Option.bind_eq_some_iff.mp hnew
        dsimp only
        rw [withName_ok (nonempty?_eq_some.mp hnew).2]
        rfl

theorem renameAll_ok (names nameless : Renaming) : ∀ (records : List Record) (n : Nat),
    renameAll names nameless n records = .ok (CiteMarkup.renameAll names nameless n records)
  | [], _ => rfl
  | r :: rs, n => by
    rw [renameAll, renameOne_ok, ok_bind]
    change (renameAll names nameless (CiteMarkup.renameOne names nameless n r).2 rs >>= _) = _
    rw [renameAll_ok names nameless rs]
    rfl

theorem handOut_ok : ∀ (xs : List Renamed) (names : List (Option Text)),
    handOut names xs = .ok (CiteMarkup.handOut names xs)
  | [], names => by cases names <;> rfl
  | x :: xs, [] => by
    rw [handOut, handOut_ok xs []]
    rfl
  | x :: xs, n :: ns => by
    rw [handOut, CiteMarkup.handOut]
    by_cases hskip : (x.record.name.isSome || x.keyed) = true
    · rw [if_pos hskip, if_pos hskip, handOut_ok xs (n :: ns)]
      rfl
    · rw [if_neg hskip, if_neg hskip]
      cases hnew : n.bind Text.nonempty? with
      | none =>
        dsimp only
        rw [handOut_ok xs ns]
        rfl
      | some new =>
        obtain ⟨_, -, hnew⟩ := Option.bind_eq_some_iff.mp hnew
        dsimp only
        rw [withName_ok (nonempty?_eq_some.mp hnew).2, ok_bind, handOut_ok xs ns]
        rfl

theorem rename_ok (m : Model) (names nameless : Renaming) :
    rename m names nameless = .ok (m.rename names nameless) := by
  rw [rename, renameAll_ok, ok_bind, handOut_ok]
  rfl

/-! ## 2. Deduplication -/

/-- **References that are alike have names.** -/
theorem isSome_name_of_likeness {l : Likeness} (h : r.likeness? = some l) : r.name.isSome := by
  rw [Record.likeness?] at h
  cases hname : r.name with
  | none =>
    rw [hname] at h
    cases h
  | some n => rfl

theorem dedupeFrom_ok : ∀ (records : List Record) {before : List (Record × Option Likeness)},
    (∀ x ∈ before, x.2 = x.1.likeness?) →
    dedupeFrom before records = .ok (CiteMarkup.dedupeFrom before records)
  | [], _, _ => rfl
  | r :: rs, before, h => by
    have hbefore : ∀ x ∈ before ++ [(r, r.likeness?)], x.2 = x.1.likeness? := fun x hx => by
      rcases List.mem_append.mp hx with hx | hx
      · exact h x hx
      · rw [List.mem_singleton.mp hx]
    have hrest := dedupeFrom_ok rs hbefore
    rw [dedupeFrom, CiteMarkup.dedupeFrom]
    dsimp only
    cases htwin : twin? before r.likeness? with
    | none =>
      rw [hrest]
      rfl
    | some s =>
      obtain ⟨l, hr, hs⟩ := Option.bind_eq_some_iff.mp htwin
      obtain ⟨⟨s', l'⟩, hfound, rfl⟩ := Option.map_eq_some_iff.mp hs
      have hlike := List.find?_some hfound
      have hs' : s'.likeness? = some l :=
        (h _ (List.mem_of_find?_eq_some hfound)).symm.trans (of_decide_eq_true hlike)
      obtain ⟨old, hold⟩ := Option.isSome_iff_exists.mp (isSome_name_of_likeness hr)
      obtain ⟨new, hnew⟩ := Option.isSome_iff_exists.mp (isSome_name_of_likeness hs')
      dsimp only
      rw [hold, hnew, hrest]
      rfl

theorem dedupe_ok (m : Model) : dedupe m = .ok m.dedupe := by
  rw [dedupe, dedupeFrom_ok m.records (by simp)]
  rfl

/-! ## 3. Plans -/

section Settled

variable (h : m.Accounts p listNames) (hs : m.Settled)
include h hs

/-- **Each name of a chain has a target.** -/
theorem targets_ok (c : Chain) : targets m c = .ok (m.targets c) := by
  rw [targets, Model.targets, List.mapIdx_eq_zipIdx_map]
  refine mapM_eq_map fun x _ => ?_
  rw [target]
  cases hcited : m.citedBy? c.id x.2 with
  | none =>
    dsimp only
    rw [hcited]
    rfl
  | some r =>
    dsimp only
    rw [hcited, find_ok h hs (List.mem_of_find?_eq_some hcited)]
    rfl

theorem changesTo_within (limits : Limits) (o : Options) (c : Chain) :
    Within (changesTo limits m o c) (m.chainEdits o c)
      (∀ i ∈ c.writtenPositions o.useChains (m.targets c), limits.admits i) := by
  have hchain := chainEdits_within limits (Model.admits_targets m c) o.useChains
  rw [changesTo, targets_ok h hs, ok_bind]
  exact hchain.map fun x => (x.1.flatMap fun e => m.page.change e.span e.text, x.2)

theorem keepRecord_ok (o : Options) (hr : r ∈ m.records) :
    keepRecord m o r = .ok (m.keepRecord o r) := by
  rw [keepRecord, find_ok h hs hr]
  rfl

end Settled

/-- **The tag that is to hold a body finds it.** -/
theorem movedUse_ok (o : Options) (r : Record) (first : Bool) :
    movedUse o r (r.location = .inline && r.content?.isSome && first) =
      .ok (o.movedUse? r (r.location = .inline && first)) := by
  unfold movedUse Options.movedUse?
  cases hname : r.name <;> cases hbody : r.content? <;> cases first <;>
    cases hinline : decide (r.location = .inline) <;> rfl

theorem moveUses_ok (m : Model) (o : Options) (r : Record) (tags : List Occurrence) :
    moveUses m o r tags = .ok (m.moveUses o r tags) := by
  rw [moveUses, Model.moveUses, List.mapIdx_eq_zipIdx_map]
  change _ = (.ok (tags.zipIdx.map _) >>= fun edits => return edits.flatten : Guarded (List Edit))
  refine congrArg (fun edits : Guarded (List (List Edit)) =>
    edits >>= fun edits => return edits.flatten) (mapM_eq_map fun x _ => ?_)
  rw [moveUse, movedUse_ok]
  dsimp only
  cases o.movedUse? r (r.location = .inline && x.2 = 0) <;> rfl

theorem moveRecord_ok (h : m.Accounts p listNames) (hs : m.Settled) (o : Options) (r : Record) :
    moveRecord m o r = .ok (m.moveRecord o r) := by
  unfold moveRecord Model.moveRecord
  by_cases hself : r.canonical = r.index
  · rw [if_pos hself, if_pos hself, merged_ok h hs, ok_bind, usesOf_ok h hs, ok_bind]
    dsimp only
    rw [moveUses_ok]
    rfl
  · rw [if_neg hself, if_neg hself]
    rfl

/-- **The parameter for definitions has its sign.** -/
theorem updated_ok {t : Template} (hi : p.IsInvocation t) (hv : p.IsVeiled) (style : ListStyle)
    (entries : List ListEntry) :
    updated t p.raw style entries = .ok (t.updated p.raw style entries) := by
  unfold updated Template.updated
  cases hrefs : t.refs? with
  | none => cases entries.isEmpty <;> rfl
  | some refs =>
    obtain ⟨i, hsign, -⟩ := hi.exists_sign hv hrefs
    dsimp only
    rw [hsign]
    cases entries.isEmpty <;> rfl

theorem listEdits_ok (hv : p.IsVeiled) (style : ListStyle) (entries : List ListEntry) :
    ∀ {ts : List Template} (served : List (Option Text)), (∀ t ∈ ts, p.IsInvocation t) →
      listEdits p style entries served ts = .ok (p.listEdits style entries served ts)
  | [], _, _ => rfl
  | t :: ts, served, hi => by
    have hrest := listEdits_ok hv style entries (served ++ [t.group?]) fun s hs =>
      hi s (List.mem_cons_of_mem _ hs)
    rw [listEdits, updated_ok (hi t List.mem_cons_self) hv, ok_bind, hrest]
    rfl

theorem rebuildLists_ok (h : m.Accounts p listNames) (hv : p.IsVeiled) (style : ListStyle)
    (entries : List ListEntry) :
    rebuildLists m style entries = .ok (m.rebuildLists style entries) := by
  have hlists : ∀ t ∈ m.lists, m.page.IsInvocation t := by
    intro t ht
    rw [h.page_eq]
    exact Page.isInvocation_of_mem_templates (Page.mem_tokens_list.mp (h.mem_lists.mp ht))
  rw [rebuildLists, listEdits_ok (by rwa [h.page_eq]) style entries [] hlists]
  rfl

/-- **A plan needs positions that can be written.** -/
theorem plan_within (limits : Limits) (h : m.Accounts p listNames) (hs : m.Settled)
    (hv : p.IsVeiled) (o : Options) (mode : Mode) :
    Within (plan limits m o mode) (m.plan o mode)
      (∀ c ∈ m.chains, ∀ i ∈ c.writtenPositions o.useChains (m.targets c), limits.admits i) := by
  have hchains := Within.mapM (l := m.chains) fun c _ => changesTo_within h hs limits o c
  have hmoved := mapM_eq_map fun r (_ : r ∈ m.records) => moveRecord_ok h hs o r
  have hlists := rebuildLists_ok h hv o.listStyle m.listEntries
  refine (hchains.bind (Within.of_ok ?_)).congr (and_iff_left trivial)
  cases mode with
  | keep =>
    dsimp only
    rw [mapM_eq_map fun r hr => keepRecord_ok h hs o hr]
    rfl
  | allInline | allListed | threshold =>
    dsimp only
    rw [hmoved, ok_bind, hlists]
    rfl

/-! ## 4. Whole runs -/

theorem dedupeIf_ok (asked : Bool) (m : Model) :
    dedupeIf asked m = .ok (if asked then some m.dedupe else none) := by
  rw [dedupeIf, dedupe_ok]
  cases asked <;> rfl

theorem joinIf_ok (asked : Prop) [Decidable asked] (t : Text) (listNames : List Text) :
    joinIf asked t listNames =
      .ok (if asked then some (CiteMarkup.joinCitations t listNames) else none) := by
  rw [joinIf, joinCitations_ok]
  by_cases h : asked <;> simp [h] <;> rfl

/-- **A setting that gives no mode must be one that can be shown.** -/
theorem modeOf_within (limits : Limits) (s : Setting) :
    Within (modeOf limits s) (Mode.ofSetting s)
      (∀ n ∈ (Mode.ofSetting s).2, ∀ v ∈ n.given?, limits.Shows v) := by
  have hwords := Within.mapM (l := (Mode.ofSetting s).2) fun n _ => words_within limits n
  exact hwords.map fun _ => Mode.ofSetting s

/-- What a transform writes fits the limits: what a notice shows of the setting, and the
positions in the chains that are written anew. -/
structure FitsLimits (limits : Limits) (o : Options) (title : Option Text) (t : Text) : Prop where
  setting : ∀ n ∈ (Mode.ofSetting o.location).2, ∀ v ∈ n.given?, limits.Shows v
  positions : ∀ c ∈ (CiteMarkup.transform o title t).placed.chains,
    ∀ i ∈ c.writtenPositions o.useChains ((CiteMarkup.transform o title t).placed.targets c),
      limits.admits i

/-- A setting that gives a mode has nothing to be shown, and no position is written that is not
one of the page. -/
theorem FitsLimits.of_indices {title : Option Text} {t : Text}
    (hmode : (Mode.ofSetting o.location).2 = [])
    (hindices : ∀ c ∈ (Model.ofText t o.listNames.toList).chains, ∀ e ∈ c.entries,
      limits.admits e.index) : FitsLimits limits o title t where
  setting := by simp [hmode]
  positions := by
    intro c hc i hi
    obtain ⟨e, he, rfl⟩ := Chain.index_of_mem_positions hi
    have hchains : (CiteMarkup.transform o title t).placed.chains =
        (Model.ofText t o.listNames.toList).chains :=
      (accounts_placed o title t).chains_eq.trans (accounts_ofText t _).chains_eq.symm
    exact hindices c (hchains ▸ hc) e he

theorem transform_within (limits : Limits) (o : Options) (title : Option Text) (t : Text) :
    Within (transform limits o title t) (CiteMarkup.transform o title t)
      (FitsLimits limits o title t) := by
  let run := CiteMarkup.transform o title t
  have hplaced : place run.unplaced run.mode = .ok (run.unplaced.place run.mode) :=
    place_ok (accounts_unplaced o title t) (settled_unplaced o title t)
  have hplan := plan_within limits (accounts_placed o title t) (settled_placed o title t)
    (Page.isVeiled_ofText t) o run.mode
  rw [transform, model_ok, ok_bind, rename_ok, ok_bind]
  change Within (dedupeIf o.dedupe run.merged >>= _) _ _
  rw [dedupeIf_ok, ok_bind]
  refine ((modeOf_within limits o.location).bind ?_).congr
    ⟨fun h => ⟨h.1, h.2⟩, fun h => ⟨h.setting, h.positions⟩⟩
  change Within (place run.unplaced run.mode >>= _) _ _
  rw [hplaced, ok_bind]
  refine (hplan.bind (Within.of_ok ?_)).congr (and_iff_left trivial)
  change (applyAll t _ >>= _) = _
  rw [applyAll_ok, ok_bind, joinIf_ok, ok_bind]
  rfl

/-- **Only what cannot be written stops a transform, and nothing stops the views of a
reader.**  For every text, all options and all names of output lists no assertion fails, no
lookup misses, and no edit ends before it begins.  A transform has the result of the stages
without guards exactly if the setting and the positions that it writes fit the limits;
otherwise it stops at a number that is too long or a value that is too deep.  They do fit if
the setting gives a mode and no position of the page is too long. -/
theorem stops_only_at_limits (limits : Limits) (o : Options) (title : Option Text) (t : Text)
    (listNames : List Text) :
    (transform limits o title t = .ok (CiteMarkup.transform o title t) ↔
        FitsLimits limits o title t) ∧
      (transform limits o title t = .ok (CiteMarkup.transform o title t) ∨
        transform limits o title t = .error .longNumber ∨
        transform limits o title t = .error .deepValue) ∧
      ((Mode.ofSetting o.location).2 = [] →
        (∀ c ∈ (Model.ofText t o.listNames.toList).chains, ∀ e ∈ c.entries,
          limits.admits e.index) → FitsLimits limits o title t) ∧
      catalogue t listNames = .ok (Reference.catalogue t listNames) ∧
      bodies t listNames = .ok (Reference.bodies t listNames) := by
  have hrun := transform_within limits o title t
  refine ⟨⟨fun hok => ?_, hrun.gives⟩, ?_, FitsLimits.of_indices, catalogue_ok t listNames,
    bodies_ok t listNames⟩
  · by_contra hno
    rcases hrun.stops hno with h | h <;> rw [h] at hok <;> cases hok
  · by_cases hfits : FitsLimits limits o title t
    · exact .inl (hrun.gives hfits)
    · exact .inr (hrun.stops hfits)

/-- A number of uses below one that is too long for the message that refuses it. -/
theorem modeOf_long {i : Int} (hsmall : ¬ 1 ≤ i) (hlong : limits.admits i = false)
    (hroom : limits.depth ≠ 0) : modeOf limits (.threshold (.int i)) = .error .longNumber := by
  obtain ⟨room, hroom⟩ := Nat.exists_eq_succ_of_ne_zero hroom
  have hmode : Mode.ofSetting (.threshold (.int i)) = (.threshold 2, [.badThreshold (.int i)]) :=
    if_neg hsmall
  have hshown : shown limits limits.depth (.int i) = .error .longNumber := by
    rw [hroom, shown, number, hlong]
    rfl
  rw [modeOf, hmode]
  dsimp only
  rw [List.mapM_cons, words, hshown]
  rfl

/-- **A setting can be too long to be shown.**  The page is empty, and the number of uses is far
below one. -/
theorem long_threshold_stops :
    transform {} { location := .threshold (.int (-(Nat.pow 10 5000 : Nat))) } none [] =
      .error .longNumber := by
  have hmode : modeOf {} (.threshold (.int (-(Nat.pow 10 5000 : Nat)))) = .error .longNumber :=
    modeOf_long (by decide +kernel) (by decide +kernel) (by decide)
  rw [transform, model_ok, ok_bind, rename_ok, ok_bind]
  change (dedupeIf false _ >>= _) = _
  rw [dedupeIf_ok, ok_bind, hmode]
  rfl

/-- A position too long to be written. -/
example : (transform ⟨2, 1000⟩ { renameMap := [("b".toList, some "x=y".toList)] } none
    "{{r|99=a|b}}".toList).map (·.text) = .error .longNumber := by
  decide +kernel

end CiteMarkup.Guarded
