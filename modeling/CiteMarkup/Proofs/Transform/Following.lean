import CiteMarkup.Proofs.Chain.Following
import CiteMarkup.Proofs.Transform.Identities
import CiteMarkup.Proofs.Transform.Keeping
import CiteMarkup.Proofs.Transform.Places
import CiteMarkup.Proofs.Transform.Silence
/-!
# Chains follow their references through a transform

After renaming, merging and deduplication every name of a chain has the canonical record of its
reference for a target.  The plan makes the chain follow its targets, whatever the options are,
unless it refuses to be taken apart: then it stays as it is written, and a warning says why
(`chains_follow_references`).
-/

namespace CiteMarkup
namespace Model

variable {m : Model} {p : Page} {names : List Text} {o : Options} {c : Chain}

/-! ## 1. The text that is planned for a chain -/

/-- What is to stand in the place of a chain. -/
def plannedText (m : Model) (o : Options) (c : Chain) : Text :=
  Edit.spliced m.page.raw c.template.span.stop c.template.span.start (m.chainEdits o c).1

/-- Edits that change nothing are not planned. -/
theorem flatMap_change (p : Page) (edits : List Edit) :
    (edits.flatMap fun e => p.change e.span e.text) =
      edits.filter fun e => p.raw.cut e.span ≠ e.text := by
  induction edits with
  | nil => rfl
  | cons e edits ih =>
    rw [List.flatMap_cons, ih, Page.change]
    split
    · rename_i h
      rw [List.filter_cons_of_neg (by simpa using h), List.nil_append]
    · rename_i h
      rw [List.filter_cons_of_pos (by simpa using h), List.singleton_append]

theorem plannedText_of_not_edited (h : (m.chainEdits o c).1 = []) :
    m.plannedText o c = m.page.raw.cut c.template.span := by
  rw [plannedText, h]
  rfl

/-! ## 2. Targets -/

namespace Accounts

variable (h : m.Accounts p names)
include h

/-- The record that stands for a record is one of the model. -/
theorem canonical_mem (hs : m.Settled) {r : Record} (hr : r ∈ m.records) :
    m.canonical r ∈ m.records := by
  rcases hs r hr with hself | ⟨s, hsm, hself, hpoint, -, -⟩
  · rwa [canonical_self hself]
  · rwa [h.canonical_of_points hr hsm hself hpoint]

/-- **The target of a name is the canonical record of its reference.** -/
theorem exists_target (hc : c ∈ m.chains) {i : Nat} {e : PlacedEntry}
    (he : c.names[i]? = some e) :
    ∃ r ∈ m.records, (∃ occ ∈ r.uses, occ.form = .chained c.id i ∧ occ.name = some e.value) ∧
      (m.targets c)[i]? = some ⟨(m.canonical r).name, (m.canonical r).content?⟩ := by
  obtain ⟨r, hr, occ, ho, hform, hname⟩ := h.exists_use_of_name hc he
  exact ⟨r, hr, ⟨occ, ho, hform, hname⟩, h.getElem?_targets hr ho hform he⟩

/-- No target has an empty name. -/
theorem target_name_ne (hs : m.Settled) (hid : m.Identified) (hc : c ∈ m.chains) :
    ∀ target ∈ m.targets c, target.name ≠ some [] := by
  intro target ht hnil
  obtain ⟨i, hi⟩ := List.mem_iff_getElem?.mp ht
  have hlength : (m.targets c).length = c.names.length := by
    rw [targets, List.length_mapIdx]
  obtain ⟨hlt, -⟩ := List.getElem?_eq_some_iff.mp hi
  obtain ⟨r, hr, -, htarget⟩ := h.exists_target hc
    (List.getElem?_eq_getElem (l := c.names) (i := i) (by omega))
  obtain rfl := Option.some.inj (hi.symm.trans htarget)
  exact (hid.records _ (h.canonical_mem hs hr) [] hnil).1 rfl

/-! ## 3. Following -/

/-- A chain of the model follows its targets, or refuses and stays. -/
theorem chain_follows (hs : m.Settled) (hid : m.Identified) (hc : c ∈ m.chains) :
    (c.Refuses o.useChains (m.targets c) ∧ m.plannedText o c = p.raw.cut c.template.span ∧
        ∃ why, (m.chainEdits o c).2 = [.kept why]) ∨
      (¬ c.Refuses o.useChains (m.targets c) ∧ (m.chainEdits o c).2 = [] ∧
        c.Follows p.raw (m.targets c) (m.plannedText o c)) := by
  have hchange : (m.chainEdits o c).1 =
      (c.edits o.useChains (m.targets c)).1.filter fun e => p.raw.cut e.span ≠ e.text := by
    rw [← flatMap_change, ← h.page_eq]
    rfl
  have hnotices : (m.chainEdits o c).2 = (c.edits o.useChains (m.targets c)).2 := rfl
  have hcases := c.edits_follow o.useChains (h.mem_chains hc).2 (h.isInvocation_of_chain hc)
    (admits_targets m c) (h.target_name_ne hs hid hc)
  rcases hcases with ⟨hrefuses, why, hedits⟩ | ⟨hnot, hnone, hfollows⟩
  · refine .inl ⟨hrefuses, ?_, why, by rw [hnotices, hedits]⟩
    rw [plannedText_of_not_edited (by rw [hchange, hedits]; rfl), h.page_eq]
  · refine .inr ⟨hnot, by rw [hnotices, hnone], ?_⟩
    rw [plannedText, hchange, h.page_eq]
    exact hfollows

end Accounts

/-- What is said of a chain is said of the plan. -/
theorem mem_notices_of_chain {mode : Mode} {n : Notice} (hc : c ∈ m.chains)
    (hn : n ∈ (m.chainEdits o c).2) : n ∈ (m.plan o mode).2 := by
  have hmem : n ∈ (m.chains.map (m.chainEdits o)).flatMap (·.2) := by
    rw [List.flatMap_map]
    exact List.mem_flatMap.mpr ⟨c, hc, hn⟩
  cases mode <;> exact List.mem_append_left _ hmem

end Model

/-- A warning of the plan is a warning of the run. -/
theorem mem_warnings_of_plan {o : Options} {title : Option Text} {t : Text} {n : Notice}
    (hlevel : n.level = .warning)
    (h : n ∈ ((transform o title t).placed.plan o (transform o title t).mode).2) :
    n.text ∈ (transform o title t).warnings := by
  have henter : ∀ j : Journal, (j.enter []).warnings = j.warnings := fun _ => rfl
  rw [Run.warnings, journal_eq, henter, Journal.warnings_noteAll, Journal.warnings_noteAll]
  refine List.mem_append_left _ (List.mem_append_right _ ?_)
  exact List.mem_map_of_mem (List.mem_filter.mpr ⟨h, by simpa using hlevel⟩)

/-! ## 4. Runs -/

/-- **Chains follow their references.**  In the text planned for a chain each name stands for the
canonical record of its reference, unless the chain refuses to be taken apart.  Then it stays as
it is written, and a warning says so. -/
theorem chains_follow_references (o : Options) (title : Option Text) (t : Text) :
    let run := transform o title t
    ∀ c ∈ run.placed.chains,
      (∀ i e, c.names[i]? = some e → ∃ r ∈ run.placed.records,
        (∃ occ ∈ r.uses, occ.form = .chained c.id i ∧ occ.name = some e.value) ∧
          (run.placed.targets c)[i]? =
            some ⟨(run.placed.canonical r).name, (run.placed.canonical r).content?⟩) ∧
      ((c.Refuses o.useChains (run.placed.targets c) ∧
          run.placed.plannedText o c = t.cut c.template.span ∧
            ∃ why, (Notice.kept why).text ∈ run.warnings) ∨
        (¬ c.Refuses o.useChains (run.placed.targets c) ∧
          (run.placed.chainEdits o c).2 = [] ∧
            c.Follows t (run.placed.targets c) (run.placed.plannedText o c))) := by
  intro run c hc
  have h : run.placed.Accounts (Page.ofText t) o.listNames.toList := accounts_placed o title t
  refine ⟨fun i e he => h.exists_target hc he, ?_⟩
  rcases h.chain_follows (o := o) (settled_placed o title t) (identified_placed o title t) hc with
    ⟨hrefuses, htext, why, hnotices⟩ | hfollows
  · refine .inl ⟨hrefuses, htext, why, mem_warnings_of_plan rfl ?_⟩
    exact Model.mem_notices_of_chain hc (by rw [hnotices]; exact List.mem_singleton_self _)
  · exact .inr hfollows

/-- A chain with a parameter that no tag can hold follows a renaming in place. -/
theorem chain_follows_renaming :
    let t := "<ref name=\"a\">x</ref>\x7b\x7br|b|a|lang=fr\x7d\x7d".toList
    let run := transform { renameMap := [("a".toList, some "c".toList)] } none t
    ∃ c ∈ run.placed.chains, c.Follows t (run.placed.targets c) (run.placed.plannedText {} c) ∧
      run.placed.plannedText {} c = "\x7b\x7br|b|c|lang=fr\x7d\x7d".toList := by
  intro t run
  obtain ⟨c, hc, hnot, htext⟩ : ∃ c ∈ run.placed.chains,
      c.isToExpand none (run.placed.targets c) = false ∧
        run.placed.plannedText {} c = "\x7b\x7br|b|c|lang=fr\x7d\x7d".toList := by
    decide +kernel
  refine ⟨c, hc, ?_, htext⟩
  have h := (chains_follow_references { renameMap := [("a".toList, some "c".toList)] } none t
    c hc).2.resolve_left fun hkept => by
      have hexpand := hkept.1.1
      rw [show c.isToExpand _ _ = c.isToExpand none (run.placed.targets c) from rfl, hnot]
        at hexpand
      cases hexpand
  exact h.2.2

/-- A chain with a parameter that no tag can hold, whose reference loses its name: it stays as it
is written, and its name stands for nothing. -/
theorem kept_chain :
    let t := "<ref name=\"a\">body</ref>\x7b\x7br|a|lang=x\x7d\x7d".toList
    let run := transform { renameMap := [("a".toList, none)] } none t
    ∃ c ∈ run.placed.chains, ⟨none, some "body".toList⟩ ∈ run.placed.targets c ∧
      ¬ "<ref>body</ref>".toList <:+: run.placed.plannedText {} c ∧
        run.text = "<ref>body</ref>\x7b\x7br|a|lang=x\x7d\x7d".toList := by
  decide +kernel

end CiteMarkup
