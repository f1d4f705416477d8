import CiteMarkup.OutputList
import CiteMarkup.Proofs.Order.Stable
import CiteMarkup.Proofs.Reference.Given
import CiteMarkup.Proofs.Tag.Written
import CiteMarkup.Proofs.Template.Written
/-!
# What written references give

A tag that is written with a body gives that body under its name and group
(`givenBodies_tag`), and one that only cites gives none.  An output list that is written with
definitions gives their bodies under the group of the list (`mem_givenBodies_list`), if each of
them can stand between two bars (`ListEntry.IsWritable`).
-/

namespace CiteMarkup

/-! ## 1. Tidied bodies -/

section Tidy

variable {c : Char} {t : Text}

theorem mem_cleanLines (h : c ∈ t) (hc : isGap c = false) : c ∈ cleanLines t := by
  induction t with
  | nil => cases h
  | cons d r ih =>
    rw [cleanLines]
    split
    · rename_i hgap
      rcases List.mem_cons.mp h with rfl | h
      · rw [hc, Bool.false_and] at hgap
        cases hgap
      · exact ih h
    · rcases List.mem_cons.mp h with rfl | h
      · exact List.mem_cons_self
      · exact List.mem_cons_of_mem _ (ih h)

theorem mem_limitLineEnds (h : c ∈ t) (hc : c ≠ '\n') (n : Nat) : c ∈ limitLineEnds n t := by
  induction t generalizing n with
  | nil => cases h
  | cons d r ih =>
    rw [limitLineEnds]
    rcases List.mem_cons.mp h with rfl | h
    · rw [if_neg hc]
      exact List.mem_cons_self
    · split
      · split
        · exact List.mem_cons_of_mem _ (ih h _)
        · exact ih h _
      · exact List.mem_cons_of_mem _ (ih h _)

/-- Tidying leaves more than blanks of what is more than blanks. -/
theorem isBlankOnly_tidy (h : t.isBlankOnly = false) : Text.isBlankOnly (tidy t) = false := by
  obtain ⟨c, hc, hblank⟩ := List.all_eq_false.mp h
  have hblank : isBlank c = false := by simpa using hblank
  have hgap : isGap c = false := by
    rw [Bool.eq_false_iff]
    intro hgap
    simp only [isGap, Bool.or_eq_true, decide_eq_true_eq] at hgap
    rcases hgap with rfl | rfl
    · exact absurd hblank (by decide)
    · exact absurd hblank (by decide)
  have hline : c ≠ '\n' := by
    rintro rfl
    exact absurd hblank (by decide)
  have hmem : c ∈ tidy t :=
    Text.mem_trim (mem_limitLineEnds (mem_cleanLines hc hgap) hline 0) hblank
  rw [Text.isBlankOnly, List.all_eq_false]
  exact ⟨c, hmem, by simp [hblank]⟩

/-- So does writing its citation templates anew. -/
theorem isBlankOnly_cleaned (normalize : Bool) (h : t.isBlankOnly = false) :
    Text.isBlankOnly (cleaned normalize t) = false := by
  have hbrace : ∀ {u : Text}, '{' ∈ u → Text.isBlankOnly u = false := fun hmem =>
    List.all_eq_false.mpr ⟨'{', hmem, by decide⟩
  have hrenewed : ∀ ts : List Template, Text.isBlankOnly (ts.foldr renewIn (tidy t)) = false := by
    intro ts
    induction ts with
    | nil => exact isBlankOnly_tidy h
    | cons tmpl ts ih =>
      rw [List.foldr_cons, renewIn]
      split
      · exact ih
      · exact hbrace (by simp [Template.writtenAnew])
  rw [cleaned]
  split
  · exact hrenewed _
  · exact isBlankOnly_tidy h

end Tidy

/-! ## 2. Tags -/

section Tags

variable {names : List Text} {name group listGroup : Option Text} {b : Text}

theorem givenIn?_ofWritten (hname : ∀ v ∈ name, IsAttribute v)
    (hgroup : ∀ v ∈ group, IsAttribute v) (hb : b.isBlankOnly = false) :
    (RefTag.ofWritten (referenceAttributes name group) b).givenIn? listGroup =
      some ⟨name, group <|> listGroup, b⟩ := by
  obtain ⟨hn, hg⟩ := value?_reference hname hgroup
  rw [RefTag.givenIn?, RefTag.name?, RefTag.group?]
  simp only [RefTag.ofWritten, hn, hg, hb, Bool.false_eq_true, if_false]

/-- **A written tag gives its body** under its name and group. -/
theorem givenBodies_tag (hname : ∀ v ∈ name, IsAttribute v) (hgroup : ∀ v ∈ group, IsAttribute v)
    (hbody : IsBody names b) (hb : b.isBlankOnly = false) :
    SelfContained names (tagAround name group b) ∧
      givenBodies names (tagAround name group b) = [⟨name, group, b⟩] := by
  obtain ⟨hself, htokens⟩ :=
    selfContained_writtenTag (areAttributes_reference hname hgroup) hbody
  have hgiven : RefTag.givenIn? none _ = _ := givenIn?_ofWritten hname hgroup hb
  have hsame : (group <|> none) = group := by cases group <;> rfl
  rw [hsame] at hgiven
  rw [tagAround_eq hname hgroup]
  refine ⟨hself, ?_⟩
  rw [givenBodies, htokens, List.flatMap_singleton, Page.givenBy, hgiven]
  rfl

/-- A tag that only cites gives nothing. -/
theorem givenBodies_citation (hname : ∀ v ∈ name, IsAttribute v)
    (hgroup : ∀ v ∈ group, IsAttribute v) (hsome : name.isSome) :
    SelfContained names (citation name group false) ∧
      givenBodies names (citation name group false) = [] := by
  obtain ⟨hself, htokens⟩ : SelfContained names _ ∧ _ :=
    selfContained_writtenEmptyTag (areAttributes_reference hname hgroup)
  rw [citation_eq hname hgroup hsome]
  refine ⟨hself, ?_⟩
  rw [givenBodies, htokens]
  rfl

end Tags

/-! ## 3. Definitions -/

/-- A definition that can be written in an output list: it is read back there. -/
structure ListEntry.IsWritable (names : List Text) (normalize : Bool) (d : ListEntry) : Prop where
  name : ∀ v ∈ d.name, IsAttribute v
  body : IsBody names (cleaned normalize d.body)
  visible : Text.isBlankOnly (cleaned normalize d.body) = false
  segment : IsSegment (fullTag d.name none d.body normalize).veil

/-- What a definition gives in a list of its group. -/
def ListEntry.given (normalize : Bool) (d : ListEntry) : GivenBody :=
  ⟨d.name, d.group, cleaned normalize d.body⟩

/-- A definition as it stands in a list. -/
def ListEntry.text (normalize : Bool) (d : ListEntry) : Text :=
  fullTag d.name none d.body normalize

/-- The tag that a definition is read as. -/
def ListEntry.tag (normalize : Bool) (d : ListEntry) : RefTag :=
  .ofWritten (referenceAttributes d.name none) (cleaned normalize d.body)

section Definitions

variable {names : List Text} {d : ListEntry} {ds : List ListEntry} {group : Option Text}
variable {u v : Text} {normalize : Bool}

theorem selfContained_lineEnd (names : List Text) : SelfContained names ['\n'] :=
  SelfContained.of_unbraced names (by decide) (by decide) (by decide)

theorem ListEntry.IsWritable.selfContained (h : d.IsWritable names normalize) :
    SelfContained names (d.text normalize) :=
  (givenBodies_tag h.name (by simp) h.body h.visible).1

theorem ListEntry.IsWritable.givenIn? (h : d.IsWritable names normalize) :
    (d.tag normalize).givenIn? d.group = some (d.given normalize) :=
  givenIn?_ofWritten h.name (by simp) h.visible

/-- A definition is read as its tag. -/
theorem ListEntry.IsWritable.readIn {α : Type} (h : d.IsWritable names normalize)
    (read : Text → RefTag → Option α) :
    (Page.ofText (d.text normalize)).readIn read =
      (read (d.text normalize) (d.tag normalize)).toList := by
  have hattributes : AreAttributes (referenceAttributes d.name none) :=
    areAttributes_reference h.name (by simp)
  have htag : d.text normalize =
      writtenTag (referenceAttributes d.name none) (cleaned normalize d.body) :=
    tagAround_eq h.name (by simp) _
  have hwhole : (d.text normalize).cut (d.tag normalize).span = d.text normalize := by
    have hspan : (d.tag normalize).span = Span.ofLength 0 (d.text normalize).length := by
      rw [htag]
      rfl
    rw [hspan, Text.cut, Span.start_ofLength, Span.stop_ofLength]
    simp [Text.slice]
  have htags : (Page.ofText (d.text normalize)).fullTags = [d.tag normalize] := by
    rw [htag]
    exact fullTags_writtenTag hattributes h.body
  rw [Page.readIn, htags]
  change List.filterMap (fun t => read ((d.text normalize).cut t.span) t) _ = _
  rw [List.filterMap_cons, hwhole]
  cases read (d.text normalize) (d.tag normalize) <;> rfl

/-- Definitions one to a line. -/
def definitionLines (normalize : Bool) (ds : List ListEntry) : Text :=
  Text.join ['\n'] (ds.map (·.text normalize))

theorem definitionLines_cons (d e : ListEntry) (ds : List ListEntry) :
    definitionLines normalize (d :: e :: ds) =
      d.text normalize ++ '\n' :: definitionLines normalize (e :: ds) :=
  join_cons _ _ _ _

theorem definitionLines_singleton (d : ListEntry) :
    definitionLines normalize [d] = d.text normalize := by
  simp [definitionLines, Text.join]

/-- **Lines of definitions** are read by themselves, can stand in a parameter, and are read as
their tags. -/
theorem reading_definitionLines (h : ∀ d ∈ ds, d.IsWritable names normalize) :
    SelfContained names (definitionLines normalize ds) ∧
      IsSegment (definitionLines normalize ds).veil ∧
      ∀ {α : Type} (read : Text → RefTag → Option α),
        (∀ n w t, read w (RefTag.shift n t) = read w t) →
          (Page.ofText (definitionLines normalize ds)).readIn read =
            ds.flatMap fun d => (read (d.text normalize) (d.tag normalize)).toList := by
  induction ds with
  | nil => exact ⟨SelfContained.nil, isSegment_nil, fun read _ => rfl⟩
  | cons d ds ih =>
    have hd := h d List.mem_cons_self
    cases ds with
    | nil =>
      rw [definitionLines_singleton]
      exact ⟨hd.selfContained, hd.segment, fun read _ => by
        rw [hd.readIn, List.flatMap_singleton]⟩
    | cons e ds =>
      obtain ⟨hself, hsegment, hread⟩ := ih fun x hx => h x (List.mem_cons_of_mem _ hx)
      have hshape : definitionLines normalize (d :: e :: ds) = d.text normalize ++
          (['\n'] ++ definitionLines normalize (e :: ds)) := definitionLines_cons d e ds
      have hrest := (selfContained_lineEnd names).append hself
      rw [hshape]
      refine ⟨hd.selfContained.append hrest, ?_, fun read hshift => ?_⟩
      · rw [hd.selfContained.veil, (selfContained_lineEnd names).veil]
        exact hd.segment.append_cons (by decide) hsegment
      · have hnone : (Page.ofText ['\n']).readIn read = [] := by
          rw [Page.readIn, Page.fullTags_eq]
          rfl
        rw [readIn_append hshift hd.selfContained,
          readIn_append hshift (selfContained_lineEnd names), hnone, hread read hshift,
          List.nil_append, hd.readIn]
        rfl

/-- Lines of definitions begin and end with a bracket. -/
theorem trimmed_definitionLines (h : ds ≠ []) :
    Text.Trimmed (definitionLines normalize ds) ∧
      ∃ r, definitionLines normalize ds = '<' :: r := by
  have hhead : ∀ d : ListEntry, ∃ r, d.text normalize = '<' :: r := fun d => by
    have hopening : ∃ r, tagHead d.name none = '<' :: r := by
      rw [tagHead, join_eq_flatMap]
      exact ⟨_, rfl⟩
    obtain ⟨r, hr⟩ := hopening
    rw [ListEntry.text, fullTag, tagAround, openingTag, hr]
    exact ⟨_, rfl⟩
  have hlast : ∀ d : ListEntry, (d.text normalize).getLast? = some '>' :=
    fun d => by
      rw [ListEntry.text, fullTag, tagAround, List.getLast?_append_of_ne_nil _ (by decide)]
      decide
  have hends : (definitionLines normalize ds).getLast? = some '>' ∧
      ∃ r, definitionLines normalize ds = '<' :: r := by
    induction ds with
    | nil => exact absurd rfl h
    | cons d ds ih =>
      obtain ⟨r, hr⟩ := hhead d
      cases ds with
      | nil => exact ⟨definitionLines_singleton d ▸ hlast d, r, definitionLines_singleton d ▸ hr⟩
      | cons e ds =>
        obtain ⟨hrest, r', hr'⟩ := ih (by simp)
        rw [definitionLines_cons]
        refine ⟨?_, ?_⟩
        · rw [List.getLast?_append_of_ne_nil _ (by simp), List.getLast?_cons, hrest]
          rfl
        · rw [hr]
          exact ⟨_, rfl⟩
  obtain ⟨hgt, r, hr⟩ := hends
  refine ⟨⟨fun c hc => ?_, fun c hc => ?_⟩, r, hr⟩
  · rw [hr] at hc
    obtain rfl : '<' = c := by simpa using hc
    decide
  · rw [hgt] at hc
    obtain rfl : '>' = c := by simpa using hc
    decide

end Definitions
end CiteMarkup
