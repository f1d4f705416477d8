import CiteMarkup.Proofs.Transform.Relisted
import CiteMarkup.Proofs.Transform.Standing
/-!
# Transforming twice

A run that renames nothing leaves a page on which a second run finds nothing to edit, if bodies can
be read again where they are put (`settles_moved`, `settles_standing`).  No reference is then
pointed at another one and no citation is joined with another one, if bodies and places have told
them apart on the old page, and the text stays as it is (`moved_again`).

A body with a bar is put into a list all the same.  The second run takes the list for one without
a definition, and drops what is left of it (`list_cut_again`).
-/

namespace CiteMarkup

/-- What is asked of a page so that a second run leaves the text of the first one as it is. -/
structure Model.IsRepeatable (m : Model) (o : Options) (mode : Mode) (t : Text) : Prop
    extends m.IsSteady o.listNames.toList t o where
  /-- A list that is added is one for the second run. -/
  reflist : mode ≠ .keep → isNameOf o.listNames.toList (canonicalName "reflist".toList) = true
  /-- If bodies stay, they can be normalized there. -/
  normal : mode = .keep → o.normalizeBodies = true → NormalizesInPlace o.listNames.toList t
  /-- Citations that could be joined stand apart. -/
  scattered : o.useChains = some true → (Page.ofText t).Scattered o.listNames.toList
  /-- References that could be merged have different bodies. -/
  differ : o.dedupe = true →
    TellApartCleaned o.normalizeBodies (givenBodies o.listNames.toList t)

/-- The page `t'` comes of the page `t`, and there is nothing to edit on it. -/
structure Settles (o : Options) (mode : Mode) (t t' : Text) : Prop where
  plain : ∀ occ ∈ ((Page.ofText t').survey o.listNames.toList).occurrences,
    PlainlyKeyed occ.name occ.group
  scattered : (Page.ofText t).Scattered o.listNames.toList →
    (Page.ofText t').Scattered o.listNames.toList
  versions : ∀ x ∈ givenBodies o.listNames.toList t', ∃ x₀ ∈ givenBodies o.listNames.toList t,
    x.IsVersionOf o.normalizeBodies x₀
  unedited : (((Model.ofText t' o.listNames.toList).place mode).1.plan o mode).1.edits = []

/-! ## 1. Plans -/

namespace Model.IsSteady

variable {m m' : Model} {names : List Text} {t t' : Text} {o : Options} {mode : Mode}
variable (hm : m.IsSteady names t o) (h : m.IsFiled mode (Page.ofText t) names)
variable (hmode : mode ≠ .keep) (hname : isNameOf names (canonicalName "reflist".toList) = true)
variable (ht' : Edit.applyAll t (m.plan o mode).1.edits = t')
include hm h hmode hname ht'

/-- **If bodies move again there is nothing to edit.** -/
theorem plan_edits_again (h' : m'.IsFiled mode (Page.ofText t') names) :
    (m'.plan o mode).1.edits = [] := by
  have hmarks : m'.markEdits o mode = [] := by
    refine List.eq_nil_iff_forall_not_mem.mpr fun e he => ?_
    rcases mem_markEdits.mp he with ⟨r', hr', he⟩ | ⟨hkeep, -⟩ | ⟨-, he | ⟨hadded, -⟩⟩
    · rw [hm.useEdits_again h hmode hname ht' h' hr'] at he
      cases he
    · exact hmode hkeep
    · rw [hm.outputEdits_again h hmode hname ht' h'] at he
      cases he
    · exact hadded (hm.addedLists_again h hmode hname ht' h')
  rw [plan_edits, hmarks, List.append_nil, List.flatMap_eq_nil_iff]
  exact fun c hc => hm.chainEdits_again h hmode hname ht' h' hc

/-- The bodies of the new page are those of the old page, cleaned. -/
theorem versions_edited {x : GivenBody} (hx : x ∈ givenBodies names t') :
    ∃ x₀ ∈ givenBodies names t, x.IsVersionOf o.normalizeBodies x₀ := by
  rw [← ht'] at hx
  obtain ⟨r, hr, hgiven⟩ := hm.gives_of_mem_edited h.toAccounts hmode hname h.unmerged hx
  obtain ⟨c, hc, rfl⟩ := Option.map_eq_some_iff.mp hgiven
  exact ⟨_, mem_givenBodies.mpr (h.exists_given hr hc), rfl, rfl,
    List.mem_cons_of_mem _ List.mem_cons_self⟩

end Model.IsSteady

section Settles

variable {o : Options} {mode : Mode} {t t' : Text} {m : Model}

/-- A page with names and groups like those of a page with plain ones has plain ones. -/
theorem plainlyKeyed_of_alike {names : List Text}
    (hplain : ∀ occ ∈ ((Page.ofText t).survey names).occurrences, PlainlyKeyed occ.name occ.group)
    (halike : ∀ occ' ∈ ((Page.ofText t').survey names).occurrences,
      ∃ occ ∈ ((Page.ofText t).survey names).occurrences, useKey occ = useKey occ') :
    ∀ occ' ∈ ((Page.ofText t').survey names).occurrences,
      PlainlyKeyed occ'.name occ'.group := by
  intro occ' ho'
  obtain ⟨occ, ho, heq⟩ := halike occ' ho'
  have hname : occ.name = occ'.name := congrArg Prod.fst heq
  have hgroup : occ.group = occ'.group := congrArg Prod.snd heq
  rw [← hname, ← hgroup]
  exact hplain occ ho

/-- A page is settled once its bodies have been moved. -/
theorem settles_moved (hm : m.IsRepeatable o mode t) (hmode : mode ≠ .keep)
    (hplaced : m = ((Model.ofText t o.listNames.toList).place mode).1)
    (ht' : Edit.applyAll t (m.plan o mode).1.edits = t') : Settles o mode t t' := by
  have hname := hm.reflist hmode
  have h : m.IsFiled mode (Page.ofText t) o.listNames.toList :=
    hplaced ▸ isFiled_place mode t _ hm.plain
  have hplain := plainlyKeyed_of_alike hm.plain fun _ ho' =>
    hm.exists_alike h hmode hname ht' ho'
  exact
    { plain := hplain
      scattered := ht' ▸ hm.scattered_edited h hmode hname
      versions := fun _ hx => hm.versions_edited h hmode hname ht' hx
      unedited := hm.plan_edits_again h hmode hname ht' (isFiled_place mode t' _ hplain) }

/-- A page is settled once its tags have been written anew where they stand. -/
theorem settles_standing (hm : m.IsRepeatable o .keep t)
    (hplaced : m = ((Model.ofText t o.listNames.toList).place .keep).1)
    (ht' : Edit.applyAll t (m.plan o .keep).1.edits = t') : Settles o .keep t t' := by
  have written : ∀ u : Text,
      ∀ r ∈ ((Model.ofText u o.listNames.toList).place .keep).1.records,
        r.writtenName = r.name := fun u =>
    Model.forall_place (fun r hr _ => writtenName_ofText u _ r hr) .keep
  have hwritten : ∀ r ∈ m.records, r.writtenName = r.name := hplaced ▸ written t
  have h : m.IsFiled .keep (Page.ofText t) o.listNames.toList :=
    hplaced ▸ isFiled_place .keep t _ hm.plain
  have hp := hm.normal rfl
  have hplain := plainlyKeyed_of_alike hm.plain fun _ ho' =>
    hm.exists_alike_standing h hp hwritten ht' ho'
  exact
    { plain := hplain
      scattered := hm.scattered_standing h hp hwritten ht'
      versions := fun _ hx => hm.versions_standing h hp hwritten ht' hx
      unedited := hm.plan_edits_standing h hp hwritten ht' (isFiled_place .keep t' _ hplain)
        (written t') }

end Settles

/-! ## 2. Runs -/

section Runs

variable {o : Options} (title : Option Text) {t : Text}

/-- A run that renames nothing and merges nothing places the references of the page. -/
theorem placed_of_names_kept (hrename : o.renameMap = []) (hnameless : o.renameNameless = [])
    (hplain : ∀ occ ∈ ((Page.ofText t).survey o.listNames.toList).occurrences,
      PlainlyKeyed occ.name occ.group)
    (hdiffer : o.dedupe = true → TellApart (givenBodies o.listNames.toList t)) :
    (transform o title t).placed =
      ((Model.ofText t o.listNames.toList).place (transform o title t).mode).1 := by
  have hkeys : ((Model.ofText t o.listNames.toList).records.map (·.key)).Nodup :=
    (numbered_recordsFrom _).keys
  have hmerged : (transform o title t).merged = Model.ofText t o.listNames.toList := by
    rw [merged_eq, hrename, hnameless, Model.rename_nil, Model.mergeIdentities_eq hkeys]
  rw [placed_eq, hmerged]
  split
  · rename_i hdedupe
    rw [dedupe_ofText hplain (hdiffer hdedupe)]
  · rfl

/-- If citations stand apart, the run ends with the text that has been edited. -/
theorem text_eq_edited (hscattered : o.useChains = some true →
      (Page.ofText (transform o title t).edited).Scattered o.listNames.toList) :
    (transform o title t).text = (transform o title t).edited := by
  by_cases hchains : o.useChains = some true
  · have hjoined : (transform o title t).joined =
        some (joinCitations (transform o title t).edited o.listNames.toList).1 := by
      simp [transform, hchains]
    rw [Run.text, hjoined, Option.getD_some,
      joinCitations_of_scattered (hscattered hchains)]
  · exact text_eq hchains

end Runs

/-- **Transforming twice is transforming once**, if nothing is renamed and the page is such that a
second run can read what the first one has written. -/
theorem moved_again (o : Options) (title title' : Option Text) (t : Text)
    (hrename : o.renameMap = []) (hnameless : o.renameNameless = [])
    (hm : (transform o title t).placed.IsRepeatable o (transform o title t).mode t) :
    let t' := (transform o title t).text
    (transform o title' t').text = t' := by
  have hplaced := placed_of_names_kept title hrename hnameless hm.plain fun hdedupe =>
    (hm.differ hdedupe).tellApart
  have hsettles : Settles o (transform o title t).mode t (transform o title t).edited := by
    by_cases hkeep : (transform o title t).mode = .keep
    · rw [hkeep] at hm hplaced ⊢
      exact settles_standing hm hplaced (by rw [← hkeep]; rfl)
    · exact settles_moved hm hkeep hplaced rfl
  have hfirst : (transform o title t).text = (transform o title t).edited :=
    text_eq_edited title fun hchains => hsettles.scattered (hm.scattered hchains)
  intro t'
  have ht' : t' = (transform o title t).edited := hfirst
  rw [ht']
  have hplaced' := placed_of_names_kept title' hrename hnameless hsettles.plain fun hdedupe =>
    (hm.differ hdedupe).of_versions hsettles.versions
  have hsame : (transform o title' (transform o title t).edited).edited =
      (transform o title t).edited := by
    have hedited : (transform o title' (transform o title t).edited).edited =
        Edit.applyAll (transform o title t).edited
          ((transform o title' (transform o title t).edited).placed.plan o
            (transform o title t).mode).1.edits := rfl
    rw [hedited, hplaced']
    exact congrArg (Edit.applyAll _) hsettles.unedited
  rw [text_eq_edited title' fun hchains => ?_, hsame]
  rw [hsame]
  exact hsettles.scattered (hm.scattered hchains)

/-- A body is moved into a list, and the tag in its place becomes a chain.  A second run leaves
both as they are, whatever else it looks for. -/
theorem moved_into_list_again :
    let o : Options :=
      { location := .value (.text "all_ldr".toList), dedupe := true, sortRefs := true,
        useChains := some true, normalizeBodies := true }
    let run := transform o none pageOfTwoBodies
    let t' := "See \x7b\x7br|a\x7d\x7d.".toList ++
      ("\x7b\x7breflist|refs=\n<ref name=\"a\">one</ref>\n".toList ++
        "<ref name=\"b\">two</ref>\n\x7d\x7d".toList)
    (o.renameMap = [] ∧ o.renameNameless = [] ∧
        run.placed.IsRepeatable o run.mode pageOfTwoBodies) ∧
      run.text = t' ∧ (transform o none t').text = t' := by
  intro o run t'
  have hplain : ∀ occ ∈ ((Page.ofText pageOfTwoBodies).survey defaultListNames).occurrences,
      PlainlyKeyed occ.name occ.group := by decide +kernel
  have hdiffer : TellApartCleaned true (givenBodies defaultListNames pageOfTwoBodies) := by
    unfold TellApartCleaned
    decide +kernel
  have hplaced : run.placed =
      ((Model.ofText pageOfTwoBodies defaultListNames).place .allListed).1 :=
    placed_of_names_kept none rfl rfl hplain fun _ => hdiffer.tellApart
  have hrepeatable : run.placed.IsRepeatable o run.mode pageOfTwoBodies := by
    rw [hplaced]
    exact
      { isMovable_pageOfTwoBodies o with
        plain := hplain
        settled := by decide +kernel
        named := by decide +kernel
        own := by decide +kernel
        reflist := by decide
        normal := fun hkeep => absurd hkeep (by decide)
        scattered := fun _ => by decide +kernel
        differ := fun _ => hdiffer }
  have htext : run.text = t' := by decide +kernel
  refine ⟨⟨rfl, rfl, hrepeatable⟩, htext, ?_⟩
  have hagain : (transform o none run.text).text = run.text :=
    moved_again o none none pageOfTwoBodies rfl rfl hrepeatable
  rwa [htext] at hagain

/-- What the first run leaves of a body with a bar is no definition, so the second run drops a
part of it: the text changes once more. -/
theorem list_cut_again :
    let o := Options.moving (.value (.text "all_ldr".toList)) false
    let t' := (transform o none "<ref name=\"a\">x|y</ref>".toList).text
    t' = "<ref name=\"a\" />\n\x7b\x7breflist|refs=\n".toList ++
        "<ref name=\"a\">x|y</ref>\n\x7d\x7d".toList ∧
      (transform o none t').text =
        "<ref name=\"a\" />\n\x7b\x7breflist|y</ref>\n\x7d\x7d".toList ∧
      (transform o none t').text ≠ t' := by
  decide +kernel

end CiteMarkup
