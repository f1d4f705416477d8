import CiteMarkup.Proofs.Tag.Retagged
import CiteMarkup.Proofs.Transform.Coherent
import CiteMarkup.Proofs.Transform.Silence
/-!
# What renaming does to a tag

A tag of a renamed reference is not changed in its name alone but written anew.  It stays of its
kind and keeps its body (`tags_renamed`).  Its other attributes stay the same exactly if it has
none besides its name and its group: whatever else stands in the old tag is gone
(`attribute_lost_by_renaming`).

A tag without content is written with the group of its reference, which is its own group unless
references share a key by accident.  Such an accident can also remove a definition: a record that
a nameless definition has begun may take in a citation of the made-up key.  Neither happens on a
page with plain names and groups, if the new names are plain.
-/

namespace CiteMarkup

/-- The options that give references new names and do nothing else. -/
def Options.renaming (names : Renaming) : Options := { renameMap := names }

/-- The tag is that of the occurrence: it stands in the running text, or with content in the
stretch for definitions of an output list. -/
inductive Page.HasTag (p : Page) (names : List Text) (occ : Occurrence) (tag : RefTag) : Prop
  | text (mem : .tag tag ∈ p.tokens names) (eq : occ = tag.occurrence)
  | list {t : Template} {s : Span} {body : Text} {start : Nat} (mem : .list t ∈ p.tokens names)
      (stretch : t.definitionSpan? = some s) (inside : tag ∈ p.refTagsBetween s.start s.stop)
      (content : tag.content = .body body start)
      (eq : occ = ⟨tag.span, .listed body tag.group?.isSome, tag.name?, tag.group? <|> t.group?⟩)

/-- The text is a tag of the same kind as the old one, with the same body and, but for the name,
the same attributes. -/
def RefTag.KeepsAllButName (tag : RefTag) (w : Text) : Prop :=
  ∃ attributes, IsTag w attributes tag.body? ∧ tag.attributes.AgreeButName attributes

/-! ## 1. Tags -/

section Tags

variable {p : Page} {names : List Text} {r : Record} {occ : Occurrence} {tag : RefTag}
variable {w : Text} {l l' : Attributes} {b b' : Option Text}

theorem IsTag.attributes_eq (h : IsTag w l b) (h' : IsTag w l' b') : l = l' := by
  obtain ⟨opening, rest, hread, hl, -⟩ := h
  obtain ⟨opening', rest', hread', hl', -⟩ := h'
  obtain ⟨rfl, -⟩ := Prod.mk.inj (Option.some.inj (hread.symm.trans hread'))
  rw [← hl, ← hl']

/-- The attributes of a tag are read from the page. -/
theorem Page.HasTag.attributes_eq (h : p.HasTag names occ tag) :
    ∃ t, tag.attributes = Attributes.ofText t := by
  have hbetween : ∃ a b, tag ∈ p.refTagsBetween a b := by
    cases h with
    | text mem _ =>
      exact ⟨_, _, (List.mem_filter.mp (Page.mem_tokens_tag.mp mem)).1⟩
    | list _ _ inside _ _ => exact ⟨_, _, inside⟩
  obtain ⟨a, b, hmem⟩ := hbetween
  rw [refTagsBetween, mem_sortByStart, List.mem_append] at hmem
  rcases hmem with hmem | hmem
  · obtain ⟨f, -, rfl⟩ := List.mem_map.mp hmem
    exact ⟨_, rfl⟩
  · obtain ⟨f, -, rfl⟩ := List.mem_map.mp (List.mem_filter.mp hmem).1
    exact ⟨_, rfl⟩

/-- **A tag that is written anew with its own group keeps everything but its name exactly if it
is plain.** -/
theorem Page.HasTag.keepsAllButName_iff (h : p.HasTag names occ tag) {name : Option Text}
    (hw : IsTag w (writtenReference name tag.group?) tag.body?) :
    tag.KeepsAllButName w ↔ tag.attributes.ArePlain := by
  obtain ⟨t, ht⟩ := h.attributes_eq
  rw [RefTag.group?, ht] at hw
  rw [ht, ← Attributes.agreeButName_iff t name]
  constructor
  · rintro ⟨l, hl, hagree⟩
    rwa [hl.attributes_eq hw, ht] at hagree
  · intro hagree
    exact ⟨_, hw, ht ▸ hagree⟩

/-- A tag of the text or a definition, as it is written under the name of its reference, is a
tag of its kind with its body.  One with content has its own group, one without that of the
reference. -/
theorem Page.HasTag.isTag_written (h : p.HasTag names occ tag)
    (hname : occ.form = .bare → ∃ n, r.name = some n ∧ n ≠ []) :
    IsTag (r.written occ)
      (writtenReference r.name (if tag.isFull then tag.group? else r.group)) tag.body? := by
  cases h with
  | text _ eq =>
    subst eq
    unfold RefTag.occurrence at hname ⊢
    cases hcontent : tag.content with
    | none =>
      rw [hcontent] at hname
      obtain ⟨n, hn, hne⟩ := hname rfl
      simp only [Record.written, RefTag.body?, RefTag.isFull, hcontent, hn, Bool.false_eq_true,
        if_false]
      exact isTag_citation r.group hne
    | body b start =>
      simp only [Record.written, RefTag.body?, RefTag.isFull, hcontent, if_true]
      exact isTag_tagAround _ _ b
  | list _ _ _ content eq =>
    subst eq
    have hgroup : ∀ g : Option Text,
        (if tag.group?.isSome = true then tag.group? <|> g else none) = tag.group? := fun g => by
      cases tag.group? <;> rfl
    simp only [Record.written, RefTag.body?, RefTag.isFull, content, if_true, hgroup]
    exact isTag_tagAround _ _ _

theorem Page.HasTag.span_eq (h : p.HasTag names occ tag) : occ.span = tag.span := by
  cases h with
  | text _ eq => rw [eq]; rfl
  | list _ _ _ _ eq => rw [eq]

/-- A tag without content has the group of its occurrence. -/
theorem Page.HasTag.isFull_or (h : p.HasTag names occ tag) :
    tag.isFull = true ∨ tag.group? = occ.group := by
  cases h with
  | text _ eq => exact .inr (by rw [eq]; rfl)
  | list _ _ _ content _ => exact .inl (by rw [RefTag.isFull, content])

end Tags

/-! ## 2. Edits -/

namespace Model

variable {m : Model} {p : Page} {names : List Text} {r : Record} {e : Edit}

section Edits

variable (h : m.Accounts p names)
include h

theorem Accounts.exists_hasTag_of_use {occ : Occurrence} (hr : r ∈ m.records)
    (ho : occ ∈ r.uses) (hchained : occ.isChained = false) :
    ∃ tag, p.HasTag names occ tag := by
  obtain ⟨tag, htag, heq⟩ := h.exists_tag hr ho hchained
  exact ⟨tag, .text htag heq⟩

theorem Accounts.exists_hasTag_of_listed {occ : Occurrence} (hr : r ∈ m.records)
    (ho : occ ∈ r.listed) : ∃ tag, p.HasTag names occ tag := by
  obtain ⟨t, ht, hocc⟩ := h.exists_list hr ho
  obtain ⟨s, tag, body, start, hs, htag, hcontent, heq⟩ := Page.exists_of_mem_listedIn hocc
  exact ⟨tag, .list ht hs htag hcontent heq⟩

/-- **An edit to a record writes an occurrence of another name anew**, or it removes a definition
of a record without a name that is used. -/
theorem Accounts.rewrites (hself : r.canonical = r.index) (hstripped : r.isStripped r = false)
    (hr : r ∈ m.records) (he : e ∈ (m.keepRecord {} r).1) :
    ∃ occ ∈ r.occurrences, ∃ tag, p.HasTag names occ tag ∧
      (e = ⟨occ.span, r.written occ⟩ ∧ occ.name ≠ r.name ∧
          ¬ (occ.form = .bare ∧ r.name = none) ∨
        r.name = none ∧ r.uses ≠ [] ∧ occ ∈ r.listed ∧ e = ⟨p.definitionLine occ, []⟩) := by
  have hmem : ∀ {occ : Occurrence}, occ ∈ r.uses ∨ occ ∈ r.listed → occ ∈ r.occurrences :=
    fun ho => r.occurrences_perm.mem_iff.mpr (List.mem_append.mpr ho)
  have hsplit : e ∈ m.useEdits {} .keep r ∨ ∃ occ ∈ r.listed, e ∈ m.definitionEdits {} r occ :=
    (List.mem_append.mp he).imp_right fun he => List.mem_flatMap.mp he
  rcases hsplit with he | ⟨occ, ho, he⟩
  · obtain ⟨occ, ho, w, hw, he⟩ := mem_useEdits_keep.mp he
    have hchained := isChained_of_keptText? hw
    obtain ⟨tag, htag⟩ := h.exists_hasTag_of_use hr ho hchained
    rw [keptText?_default hself hstripped hchained (h.mem_survey_of_use hr ho).2] at hw
    split at hw
    · cases hw
    · rename_i hother
      obtain rfl := Option.some.inj hw
      obtain ⟨hname, hbare⟩ := not_or.mp hother
      exact ⟨occ, hmem (.inl ho), tag, htag, .inl ⟨(Page.mem_change.mp he).2, hname, hbare⟩⟩
  · obtain ⟨tag, htag⟩ := h.exists_hasTag_of_listed hr ho
    obtain ⟨b, own, hform⟩ := Occurrence.exists_listed (h.mem_survey_of_listed hr ho).2
    refine ⟨occ, hmem (.inr ho), tag, htag, ?_⟩
    have hbody : ({} : Options).keptBody occ = b := by
      simp [Options.keptBody, Occurrence.body?, hform]
    rw [definitionEdits, keptDefinition, canonical_self hself, hbody] at he
    split at he
    · rename_i hgoes
      rw [List.mem_singleton, h.page_eq] at he
      obtain ⟨hname, huses⟩ : r.name = none ∧ r.uses ≠ [] := by simpa using hgoes
      exact .inr ⟨hname, huses, ho, he⟩
    · split at he
      · cases he
      · rename_i hother
        have hname : occ.name ≠ r.name := by simpa using hother
        have heq := (Page.mem_change.mp he).2
        simp only [hform] at heq
        refine .inl ⟨?_, hname, fun hbare => by simp [hform] at hbare⟩
        rw [heq, Record.written, hform]

/-- **What an edit to a record makes of a tag.**  It keeps the kind and the body, and everything
but the name exactly if the tag is plain, or it removes a definition. -/
theorem Accounts.retags (hidentified : r.Identified) (hself : r.canonical = r.index)
    (hstripped : r.isStripped r = false) (hr : r ∈ m.records)
    (he : e ∈ (m.keepRecord {} r).1) :
    ∃ occ ∈ r.occurrences, ∃ tag, p.HasTag names occ tag ∧
      (e.span = tag.span ∧ (∃ attributes, IsTag e.text attributes tag.body?) ∧
          (tag.isFull = true ∨ tag.group? = r.group →
            (tag.KeepsAllButName e.text ↔ tag.attributes.ArePlain)) ∨
        r.name = none ∧ r.uses ≠ [] ∧ occ ∈ r.listed ∧ e = ⟨p.definitionLine occ, []⟩) ∧
      (r.IsCoherent → r.name.isSome = true ∧ (tag.isFull = true ∨ tag.group? = r.group)) := by
  obtain ⟨occ, ho, tag, htag, hcases⟩ := h.rewrites hself hstripped hr he
  refine ⟨occ, ho, tag, htag, ?_, fun hcoherent => ?_⟩
  · rcases hcases with ⟨rfl, -, hbare⟩ | hremoved
    · have hw := htag.isTag_written (r := r) fun hform => by
        obtain ⟨n, hn⟩ := Option.ne_none_iff_exists'.mp fun hnone => hbare ⟨hform, hnone⟩
        exact ⟨n, hn, (hidentified n hn).1⟩
      refine .inl ⟨htag.span_eq, ⟨_, hw⟩, fun hgroup => ?_⟩
      have hsame : (if tag.isFull = true then tag.group? else r.group) = tag.group? := by
        split
        · rfl
        · rename_i hfull
          exact (hgroup.resolve_left hfull).symm
      rw [hsame] at hw
      exact htag.keepsAllButName_iff hw
    · exact .inr hremoved
  · have hsome : r.name.isSome = true := by
      by_contra hnot
      have hnone : r.name = none := by simpa using hnot
      obtain ⟨o, hon, honly⟩ := hcoherent.nameless hnone
      rcases hcases with ⟨-, hname, -⟩ | ⟨-, huses, hlisted, -⟩
      · rw [honly occ ho, hon, hnone] at hname
        exact hname rfl
      · -- the one occurrence would be a use and a definition
        obtain ⟨u, hu⟩ := List.exists_mem_of_ne_nil _ huses
        have huo := honly u (r.occurrences_perm.mem_iff.mpr (List.mem_append_left _ hu))
        have hnotListed := (h.mem_survey_of_use hr hu).2
        rw [huo, ← honly occ ho, (h.mem_survey_of_listed hr hlisted).2] at hnotListed
        cases hnotListed
    refine ⟨hsome, htag.isFull_or.imp_right fun hgroup => ?_⟩
    rw [hgroup, (hcoherent.named hsome occ ho).2]

end Edits
end Model

/-! ## 3. A renaming -/

section Renaming

variable {names : Renaming} (hnames : ∀ a ∈ names, a.2.isSome = true)

/-- New names are no part of what is planned if bodies stay: the records have them already. -/
theorem plan_renaming (m : Model) (names : Renaming) :
    m.plan (.renaming names) .keep = m.plan {} .keep := rfl

theorem placed_renaming (names : Renaming) (title : Option Text) (t : Text) :
    (transform (.renaming names) title t).placed =
      ((((Model.ofText t defaultListNames).rename names []).1.mergeIdentities).place .keep).1 := by
  rw [placed_eq, merged_eq]
  rfl

/-- Without deduplication each record of a run stands for itself. -/
theorem unmerged_renaming (names : Renaming) (title : Option Text) (t : Text) :
    (transform (.renaming names) title t).placed.Unmerged := by
  have hu := ((unmerged_ofText t defaultListNames).rename names []).mergeIdentities
  rw [placed_renaming]
  exact Model.forall_place (motive := fun r => r.canonical = r.index) (fun r hr _ => hu r hr) .keep

include hnames

/-- No reference loses its name. -/
theorem isStripped_renaming (title : Option Text) (t : Text) :
    ∀ r ∈ (transform (.renaming names) title t).placed.records, r.isStripped r = false := by
  rw [placed_renaming]
  refine Model.forall_place (motive := fun r => r.isStripped r = false)
    (fun r hr l => ?_) .keep
  refine forall_mergeIdentities (motive := fun r => r.isStripped r = false) (fun _ _ h => h) _
    (fun r' hr' => ?_) r hr
  obtain ⟨r, hr, rfl | ⟨-, new, rfl⟩⟩ := exists_of_mem_rename hnames hr'
  · exact Model.isStripped_of_writtenName (writtenName_ofText t defaultListNames _ hr)
  · rfl

/-- **A renaming leaves the records of a plain page coherent.** -/
theorem coherent_renaming (title : Option Text) (t : Text)
    (hpage : ∀ o ∈ (Page.ofText t).occurrences defaultListNames, PlainlyKeyed o.name o.group)
    (hplain : ∀ new, Offers names new → PlainName new) :
    ∀ r ∈ (transform (.renaming names) title t).placed.records, r.IsCoherent := by
  have hoffers : ∀ new, Offers names new ∨ Offers [] new → PlainName new := by
    rintro new (hnew | ⟨key, hmem⟩)
    · exact hplain new hnew
    · cases hmem
  have happart := (plainKeys_rename t defaultListNames names [] hpage hoffers).apart
  have hcoherent := Model.coherent_mergeIdentities happart
    (coherent_rename hnames (coherent_ofText t defaultListNames hpage))
  rw [placed_renaming]
  exact Model.forall_place (motive := Record.IsCoherent)
    (fun r hr _ => ⟨(hcoherent r hr).named, (hcoherent r hr).nameless⟩) .keep

end Renaming

/-- **Renaming keeps the kind and the body of a tag, and everything but the name exactly if the
tag is plain.**  This is said of each edit that is not one to a chain, if the tag has content or
the group of its reference.  The one other edit removes a definition, of a record without a name
that is used.  On a page with plain names and groups, and with plain new names, there is no such
record, and a tag without content has the group of its reference. -/
theorem tags_renamed {names : Renaming} (hnames : ∀ a ∈ names, a.2.isSome = true)
    (title : Option Text) (t : Text) :
    let p := Page.ofText t
    let run := transform (.renaming names) title t
    ∀ e ∈ run.plan.edits,
      (∃ c ∈ run.placed.chains, e ∈ (run.placed.chainEdits (.renaming names) c).1) ∨
      ∃ r ∈ run.placed.records, ∃ occ ∈ r.occurrences, ∃ tag, p.HasTag defaultListNames occ tag ∧
        (e.span = tag.span ∧ (∃ attributes, IsTag e.text attributes tag.body?) ∧
            (tag.isFull = true ∨ tag.group? = r.group →
              (tag.KeepsAllButName e.text ↔ tag.attributes.ArePlain)) ∨
          r.name = none ∧ r.uses ≠ [] ∧ occ ∈ r.listed ∧ e = ⟨p.definitionLine occ, []⟩) ∧
        ((∀ o ∈ p.occurrences defaultListNames, PlainlyKeyed o.name o.group) →
          (∀ new, Offers names new → PlainName new) →
            r.name.isSome = true ∧ (tag.isFull = true ∨ tag.group? = r.group)) := by
  intro p run e he
  have h : run.placed.Accounts p defaultListNames := accounts_placed (.renaming names) title t
  have hidentified : run.placed.Identified := identified_placed (.renaming names) title t
  have hself : run.placed.Unmerged := unmerged_renaming names title t
  have hstripped : ∀ r ∈ run.placed.records, r.isStripped r = false :=
    isStripped_renaming hnames title t
  have hcoherent : (∀ o ∈ p.occurrences defaultListNames, PlainlyKeyed o.name o.group) →
      (∀ new, Offers names new → PlainName new) → ∀ r ∈ run.placed.records, r.IsCoherent :=
    coherent_renaming hnames title t
  have hedits : run.plan.edits = (run.placed.plan {} .keep).1.edits := by
    have hmode : run.mode = .keep := rfl
    rw [plan_eq, hmode, plan_renaming]
  clear_value run
  rw [hedits, Model.plan_edits, List.mem_append, Model.markEdits] at he
  rcases he with he | he
  · obtain ⟨c, hc, he⟩ := List.mem_flatMap.mp he
    exact .inl ⟨c, hc, he⟩
  · obtain ⟨r, hr, he⟩ := List.mem_flatMap.mp he
    obtain ⟨occ, ho, tag, htag, hcases, hcoherent'⟩ := h.retags (hidentified.records r hr)
      (hself r hr) (hstripped r hr) hr he
    exact .inr ⟨r, hr, occ, ho, tag, htag, hcases, fun hpage hplain =>
      hcoherent' (hcoherent hpage hplain r hr)⟩

/-- A page with a reference in a group, and a renaming of it. -/
def pageOfGroup : Text :=
  "<ref name=\"a\" group=\"g\">x</ref><ref name=\"a\" group=\"g\" />".toList

/-- A reference in a group and a citation of it get another name and keep everything else. -/
theorem tags_renamed_pageOfGroup :
    let names : Renaming := [("a".toList, some "c".toList)]
    let edits := (transform (.renaming names) none pageOfGroup).plan.edits
    (∀ a ∈ names, a.2.isSome = true) ∧ edits.length = 2 ∧
      ∀ e ∈ edits, ∃ tag ∈ (Page.ofText pageOfGroup).refTags,
        e.span = tag.span ∧ tag.KeepsAllButName e.text := by
  intro names edits
  have hnames : ∀ a ∈ names, a.2.isSome = true := by decide
  have hpage : ∀ o ∈ (Page.ofText pageOfGroup).occurrences defaultListNames,
      PlainlyKeyed o.name o.group := by
    decide +kernel
  have hoffers : ∀ new, Offers names new → PlainName new := by
    rintro new ⟨key, hmem⟩
    obtain ⟨-, heq⟩ := Prod.mk.inj (List.mem_singleton.mp hmem)
    obtain rfl := Option.some.inj heq
    decide
  have htags : ∀ tag ∈ (Page.ofText pageOfGroup).refTags, tag.attributes.ArePlain := by
    decide +kernel
  have hunlisted : (Page.ofText pageOfGroup).templates defaultListNames = [] := by
    decide +kernel
  have hchains : (transform (.renaming names) none pageOfGroup).placed.chains = [] := by
    decide +kernel
  refine ⟨hnames, by decide +kernel, fun e he => ?_⟩
  rcases tags_renamed hnames none pageOfGroup e he with
    ⟨c, hc, -⟩ | ⟨r, -, occ, -, tag, htag, hedit, hplain⟩
  · rw [hchains] at hc
    cases hc
  · have hmem : tag ∈ (Page.ofText pageOfGroup).refTags := by
      cases htag with
      | text mem _ => exact (List.mem_filter.mp (Page.mem_tokens_tag.mp mem)).1
      | list mem _ _ _ _ =>
        have hlist := Page.mem_tokens_list.mp mem
        rw [hunlisted] at hlist
        cases hlist
    obtain ⟨hsome, hgroup⟩ := hplain hpage hoffers
    rcases hedit with ⟨hspan, -, hkeeps⟩ | ⟨hnone, -⟩
    · exact ⟨tag, hmem, hspan, (hkeeps hgroup).mpr (htags tag hmem)⟩
    · rw [hnone] at hsome
      cases hsome

/-- A tag with a further attribute loses it with its old name. -/
theorem attribute_lost_by_renaming :
    let t := "<ref name=\"a\" follow=\"b\">x</ref>".toList
    let w := "<ref name=\"c\">x</ref>".toList
    ∃ tag ∈ (Page.ofText t).refTags,
      (transform (.renaming [("a".toList, some "c".toList)]) none t).plan.edits =
        [⟨tag.span, w⟩] ∧ ¬ tag.KeepsAllButName w := by
  intro t w
  have hmem : (.tag ⟨⟨0, 32, by decide⟩, [("name".toList, "a".toList),
      ("follow".toList, "b".toList)], .body "x".toList 25⟩) ∈
        (Page.ofText t).tokens defaultListNames := by
    decide +kernel
  refine ⟨_, (List.mem_filter.mp (Page.mem_tokens_tag.mp hmem)).1, by decide +kernel, ?_⟩
  have heq : tagAround (some "c".toList) none "x".toList = w := by decide
  have hw := isTag_tagAround (some "c".toList) none "x".toList
  rw [heq] at hw
  rw [(Page.HasTag.text hmem rfl).keepsAllButName_iff hw]
  decide

end CiteMarkup
