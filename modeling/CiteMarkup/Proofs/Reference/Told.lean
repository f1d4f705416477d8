import CiteMarkup.Proofs.Chain.Collapse
import CiteMarkup.Proofs.Page.Signs
import CiteMarkup.Proofs.Reference.Rebuilt
/-!
# What written marks tell

A tag that is written with a body tells that body under its name and group, one that only cites
tells that it cites (`signs_tag`, `signs_citation`), and so does a chain of one name
(`signs_singleChain`).  An output list that is written with definitions tells these, one after the
other, under its group (`IsListOf.signs_eq`).
-/

namespace CiteMarkup

/-- What a tag with a body tells. -/
def toldTag (name group : Option Text) (b : Text) : Told :=
  (⟨Span.empty 0, .full b, name, group⟩, tagAround name group b)

/-- What a tag that only cites tells. -/
def toldCitation (name group : Option Text) : Told :=
  (⟨Span.empty 0, .bare, name, group⟩, citation name group false)

/-- What a definition tells in a list of its group. -/
def ListEntry.told (normalize : Bool) (d : ListEntry) : Told :=
  (⟨Span.empty 0, .listed (cleaned normalize d.body) false, d.name, d.group⟩, d.text normalize)

section Marks

variable {names : List Text} {w b : Text} {name group : Option Text} {k : Token} {t : RefTag}

theorem cut_whole (w : Text) : w.cut (Span.ofLength 0 w.length) = w := by
  rw [Text.cut, Span.start_ofLength, Span.stop_ofLength]
  simp [Text.slice]

/-- The sign of a text that is one tag. -/
theorem signs_of_tag (htokens : (Page.ofText w).tokens names = [.tag t])
    (hspan : t.span = Span.ofLength 0 w.length) :
    signs names w = [⟨.tag t.home, w, [(t.occurrence.told, w)]⟩] := by
  have hcut : (Page.ofText w).raw.cut t.span = w := by
    rw [hspan]
    exact cut_whole w
  have hcut' : (Page.ofText w).raw.cut t.occurrence.span = w := hcut
  rw [signs, htokens, List.map_singleton, Page.sign, Page.tells, Page.tell, hcut',
    Token.span_tag, hcut]
  rfl

theorem selfContained_tagAround (hname : ∀ v ∈ name, IsAttribute v)
    (hgroup : ∀ v ∈ group, IsAttribute v) (hbody : IsBody names b) :
    SelfContained names (tagAround name group b) := by
  rw [tagAround_eq hname hgroup]
  exact (selfContained_writtenTag (areAttributes_reference hname hgroup) hbody).1

/-- **A written tag tells its body.** -/
theorem signs_tag (hname : ∀ v ∈ name, IsAttribute v) (hgroup : ∀ v ∈ group, IsAttribute v)
    (hbody : IsBody names b) :
    ∃ t, signs names (tagAround name group b) =
      [⟨.tag t, tagAround name group b, [toldTag name group b]⟩] := by
  obtain ⟨-, htokens⟩ := selfContained_writtenTag (areAttributes_reference hname hgroup) hbody
  obtain ⟨hn, hg⟩ := value?_reference hname hgroup
  have hsigns := signs_of_tag htokens rfl
  have htold : (RefTag.ofWritten (referenceAttributes name group) b).occurrence.told =
      ⟨Span.empty 0, .full b, name, group⟩ := by
    simp only [RefTag.occurrence, Occurrence.told, RefTag.ofWritten, RefTag.name?, RefTag.group?,
      hn, hg]
  rw [htold] at hsigns
  rw [toldTag, tagAround_eq hname hgroup]
  exact ⟨_, hsigns⟩

/-- A tag that only cites tells that it cites. -/
theorem signs_citation (hname : ∀ v ∈ name, IsAttribute v) (hgroup : ∀ v ∈ group, IsAttribute v)
    (hsome : name.isSome) :
    ∃ t, signs names (citation name group false) =
      [⟨.tag t, citation name group false, [toldCitation name group]⟩] := by
  obtain ⟨-, htokens⟩ : SelfContained names _ ∧ _ :=
    selfContained_writtenEmptyTag (areAttributes_reference hname hgroup)
  obtain ⟨hn, hg⟩ := value?_reference hname hgroup
  have hsigns := signs_of_tag htokens rfl
  have htold : (⟨Span.ofLength 0 (writtenEmptyTag (referenceAttributes name group)).length,
      referenceAttributes name group, .none⟩ : RefTag).occurrence.told =
      ⟨Span.empty 0, .bare, name, group⟩ := by
    simp only [RefTag.occurrence, Occurrence.told, RefTag.name?, RefTag.group?, hn, hg]
  rw [htold] at hsigns
  rw [toldCitation, citation_eq hname hgroup hsome]
  exact ⟨_, hsigns⟩

end Marks

section Chains

variable {names : List Text} {name : Text} {group : Option Text}

/-- A chain of one name is that of one link. -/
theorem singleChain_eq (name : Text) (group : Option Text) :
    singleChain name group = writeLinks [{ name := name, group := group }] := by
  have hkey : "group".toList ++ indexSuffix 1 = "group".toList := rfl
  simp only [singleChain, writeLinks, linkParamsFrom, Link.params, linkParam?, hkey]
  cases group.bind Text.nonempty? <;> rfl

/-- Names and groups that a chain cites are those of its links. -/
theorem Template.citedBy_eq (t : Template) :
    citedBy ((placedEntries t.paramText).map (·.toEntry)) =
      t.links.map fun l => (some l.name, l.group) := by
  rw [Template.links, entryLinks, List.map_map]
  rfl

/-- What a chain of one name tells. -/
def toldInChain (name : Text) (group : Option Text) : Told :=
  (⟨Span.empty 0, .chained 0 0, some name, group⟩, singleChain name group)

/-- **A written chain of one name tells that it cites it.** -/
theorem signs_singleChain (hname : IsValue name ∧ StandsInChain name)
    (hgroup : ∀ g ∈ group, IsValue g ∧ StandsInChain g)
    (hchains : isNameOf names (canonicalName chainName) = false) :
    SelfContained names (singleChain name group) ∧ ∃ c : Template,
      (Page.ofText (singleChain name group)).tokens names = [.chain c] ∧
        signs names (singleChain name group) =
          [⟨.chain c.home, singleChain name group, [toldInChain name group]⟩] ∧
        citedNames c.home.paramText = [name] := by
  have hvalues : ∀ l ∈ [({ name := name, group := group } : Link)], ∀ v ∈ l.values,
      IsValue v ∧ StandsInChain v := by
    intro l hl v hv
    obtain rfl := List.mem_singleton.mp hl
    rcases mem_values.mp hv with rfl | ⟨role, hrole⟩
    · exact hname
    · cases role with
      | group => exact hgroup v hrole
      | name => cases hrole
      | page => cases hrole
      | pages => cases hrole
      | place => cases hrole
      | other => cases hrole
  obtain ⟨hself, c, htokens, hspan, hlinks⟩ :=
    selfContained_writeLinks (by simp) hvalues hchains
  rw [singleChain_eq]
  have hcut : (Page.ofText (writeLinks [{ name := name, group := group }])).raw.cut c.span =
      writeLinks [{ name := name, group := group }] := by
    rw [hspan]
    exact cut_whole _
  refine ⟨hself, c, htokens, ?_, ?_⟩
  · have hcited : citedBy ((⟨0, c, placedEntries c.paramText⟩ : Chain).plainEntries) =
        [(some name, group)] := by
      refine c.citedBy_eq.trans ?_
      rw [hlinks]
      rfl
    have htells : (Page.ofText (writeLinks [{ name := name, group := group }])).tells (.chain c) =
        [toldInChain name group] := by
      rw [Page.tells, Chain.told_occurrences, hcited, toldInChain, singleChain_eq,
        List.map_singleton, hcut]
    rw [signs, htokens, List.map_singleton, Page.sign, htells, Token.span_chain, hcut]
    rfl
  · have hnames := congrArg (List.map Link.name) hlinks
    rw [Template.links, entryLinks, List.map_map, List.filter_map, List.map_map] at hnames
    exact hnames
end Chains

section Lists

variable {names : List Text} {name w : Text} {segments : List Text} {group : Option Text}
variable {ds : List ListEntry} {normalize : Bool}

theorem ListEntry.IsWritable.toldIn? {d : ListEntry} (h : d.IsWritable names normalize) :
    (d.tag normalize).toldIn? d.group (d.text normalize) = some (d.told normalize) := by
  have hnone : ∀ v ∈ (none : Option Text), IsAttribute v := by simp
  obtain ⟨hn, hg⟩ := value?_reference h.name hnone
  simp only [RefTag.toldIn?, RefTag.definedIn?, ListEntry.tag, RefTag.ofWritten, RefTag.name?,
    RefTag.group?, hn, hg, Option.map_some, ListEntry.told]
  rfl

/-- **A written list tells the definitions in it.** -/
theorem IsListOf.signs_eq (h : IsListOf names normalize group ds w name segments)
    (hds : ∀ d ∈ ds, d.IsWritable names normalize) (hgroup : ∀ d ∈ ds, d.group = group) :
    signs names w =
      [⟨.list (Template.ofWritten name segments), w, ds.map (·.told normalize)⟩] := by
  have htokens := (selfContained_listText h.toIsWritable h.wanted).2
  have hread := h.holds.readIn h.toIsWritable hds
    (RefTag.toldIn? (Template.ofWritten name segments).group?)
    fun n w t => RefTag.toldIn?_shift n _ w t
  have htold : ds.flatMap (fun d => ((d.tag normalize).toldIn?
      (Template.ofWritten name segments).group? (d.text normalize)).toList) =
        ds.map (·.told normalize) := by
    rw [List.map_eq_flatMap]
    refine List.flatMap_congr fun d hd => ?_
    rw [h.group, ← hgroup d hd, (hds d hd).toldIn?]
    rfl
  have hhome : (Template.ofWritten name segments).home = Template.ofWritten name segments := by
    simp only [Template.home, Template.ofWritten, Span.home, Span.start_ofLength,
      Span.stop_ofLength, Nat.sub_zero, Nat.zero_add]
  have hcut : (Page.ofText w).raw.cut (Template.ofWritten name segments).span = w := by
    rw [h.text]
    exact cut_whole _
  have hsaid : (Page.ofText w).tells (.list (Template.ofWritten name segments)) =
      ds.map (·.told normalize) := by
    rw [← htold, ← hread, h.text]
    rfl
  rw [signs, h.text, htokens, List.map_singleton, ← h.text, Page.sign, hsaid, Token.span_list,
    hcut, Token.home, hhome]

end Lists
end CiteMarkup
