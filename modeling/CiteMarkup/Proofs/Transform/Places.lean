import CiteMarkup.Proofs.Chain.Edits
import CiteMarkup.Proofs.Edit.Settle
import CiteMarkup.Proofs.Transform.Accounts
/-!
# Where the edits of a transform stand

Every planned edit is an insertion at the end of the page or belongs to one mark
(`exists_seat`): it rewrites a tag, an output list or a chain as a whole, a name inside a
chain, or a definition inside a list.  It stays inside its mark (`Seats.within`), and two edits
of one mark are for the same stretch or apart (`Seats.apart`).

So edits overlap only where two marks do, and marks can: a tag with content that begins before
an output list may end inside it, and a tag may stand in a parameter of a chain.  What holds
of every page and all options is `pairwise_settled_edits`: settled edits stand one behind the
other, except inside two marks that overlap.
-/

namespace CiteMarkup

/-! ## 1. The parts of a plan -/

theorem Page.change_cases (p : Page) (s : Span) (w : Text) :
    p.change s w = [] ∨ p.change s w = [⟨s, w⟩] := by
  unfold change
  split
  · exact .inl rfl
  · exact .inr rfl

theorem Page.mem_change {p : Page} {s : Span} {w : Text} {e : Edit} :
    e ∈ p.change s w ↔ p.raw.cut s ≠ w ∧ e = ⟨s, w⟩ := by
  unfold change
  split
  · simp [*]
  · simp [*]

theorem Page.span_of_mem_change {p : Page} {s : Span} {w : Text} {e : Edit}
    (h : e ∈ p.change s w) : e.span = s := by
  rw [(Page.mem_change.mp h).2]

namespace Model

variable {m : Model} {p : Page} {names : List Text} {o : Options} {mode : Mode} {e f : Edit}

/-- The edits to the uses of a record. -/
def useEdits (m : Model) (o : Options) (mode : Mode) (r : Record) : List Edit :=
  match mode with
  | .keep => r.uses.flatMap fun occ =>
      match o.keptUse? r (m.canonical r) ((m.canonical r).index ≠ r.index) occ with
      | some text => m.page.change occ.span text
      | none => []
  | _ => (m.moveRecord o r).1.edits

/-- The edits to a definition that stays. -/
def definitionEdits (m : Model) (o : Options) (r : Record) : Occurrence → List Edit :=
  m.keptDefinition o r (m.canonical r) ((m.canonical r).index ≠ r.index)

/-- The edits to the output lists if bodies move. -/
def outputEdits (m : Model) (o : Options) : List Edit :=
  m.page.listEdits o.listStyle m.listEntries [] m.lists

/-- The lists that are added at the end of the page if bodies move. -/
def addedLists (m : Model) (o : Options) : List Text :=
  newLists o.listStyle m.listEntries (m.lists.map (·.group?))

theorem rebuildLists_eq (m : Model) (o : Options) :
    m.rebuildLists o.listStyle m.listEntries = m.outputEdits o ++
      if (m.addedLists o).isEmpty then []
      else [⟨Span.empty m.page.raw.length, (m.addedLists o).flatten⟩] := rfl

/-- All edits of a plan but those of chains. -/
def markEdits (m : Model) (o : Options) (mode : Mode) : List Edit :=
  match mode with
  | .keep => m.records.flatMap fun r => (m.keepRecord o r).1
  | _ => m.records.flatMap (fun r => (m.moveRecord o r).1.edits) ++
      m.rebuildLists o.listStyle m.listEntries

/-- The edits of a plan: those of chains come first. -/
theorem plan_edits (m : Model) (o : Options) (mode : Mode) :
    (m.plan o mode).1.edits = m.chains.flatMap (fun c => (m.chainEdits o c).1) ++
      m.markEdits o mode := by
  cases mode <;> simp [plan, markEdits, List.flatMap_map, List.append_assoc]

/-- What the edits of a plan are, apart from those of chains. -/
theorem mem_markEdits : e ∈ m.markEdits o mode ↔
    (∃ r ∈ m.records, e ∈ m.useEdits o mode r) ∨
      (mode = .keep ∧ ∃ r ∈ m.records, ∃ occ ∈ r.listed, e ∈ m.definitionEdits o r occ) ∨
      (mode ≠ .keep ∧ (e ∈ m.outputEdits o ∨
        m.addedLists o ≠ [] ∧
          e = ⟨Span.empty m.page.raw.length, (m.addedLists o).flatten⟩)) := by
  have moving : e ∈ m.records.flatMap (fun r => (m.moveRecord o r).1.edits) ++
      m.rebuildLists o.listStyle m.listEntries ↔
        (∃ r ∈ m.records, e ∈ (m.moveRecord o r).1.edits) ∨ e ∈ m.outputEdits o ∨
          m.addedLists o ≠ [] ∧
            e = ⟨Span.empty m.page.raw.length, (m.addedLists o).flatten⟩ := by
    rw [List.mem_append, List.mem_flatMap, rebuildLists_eq, List.mem_append]
    cases m.addedLists o <;> simp
  cases mode with
  | keep =>
    simp only [markEdits, useEdits, List.mem_flatMap, keepRecord, List.mem_append,
      definitionEdits, ne_eq, not_true_eq_false, false_and, or_false, true_and]
    constructor
    · rintro ⟨r, hr, he | he⟩
      · exact .inl ⟨r, hr, he⟩
      · exact .inr ⟨r, hr, he⟩
    · rintro (⟨r, hr, he⟩ | ⟨r, hr, he⟩)
      · exact ⟨r, hr, .inl he⟩
      · exact ⟨r, hr, .inr he⟩
  | allInline => simpa [markEdits, useEdits] using moving
  | allListed => simpa [markEdits, useEdits] using moving
  | threshold n => simpa [markEdits, useEdits] using moving

/-- The edit belongs to the mark. -/
def Seats (m : Model) (o : Options) (mode : Mode) (e : Edit) : Token → Prop
  | .tag t => e.span = t.span ∧ ∃ r ∈ m.records, e ∈ m.useEdits o mode r
  | .chain t => ∃ c ∈ m.chains, c.template = t ∧ e ∈ (m.chainEdits o c).1
  | .list t =>
    (mode ≠ .keep ∧ e.span = t.span ∧ e ∈ m.outputEdits o) ∨
      (mode = .keep ∧ ∃ r ∈ m.records, ∃ occ ∈ r.listed,
        occ ∈ m.page.listedIn t ∧ e ∈ m.definitionEdits o r occ)
  | .locator _ => False

/-! ## 2. Edits of a definition -/

/-- A definition has one edit at most, for its own stretch or for its line. -/
theorem definitionEdits_cases (m : Model) (o : Options) (r : Record) (occ : Occurrence) :
    m.definitionEdits o r occ = [] ∨ ∃ w, m.definitionEdits o r occ = [⟨occ.span, w⟩] ∨
      m.definitionEdits o r occ = [⟨m.page.definitionLine occ, w⟩] := by
  unfold definitionEdits keptDefinition
  split
  · exact .inr ⟨[], .inr rfl⟩
  · split
    · exact .inl rfl
    · exact (Page.change_cases _ _ _).imp_right fun h => ⟨_, .inl h⟩

variable {occ occ' : Occurrence}

theorem start_definitionLine (p : Page) (occ : Occurrence) :
    (p.definitionLine occ).start = occ.span.start := by
  unfold Page.definitionLine
  split <;> rfl

/-- The line of a definition ends with the definition, or with a line end behind it. -/
theorem stop_definitionLine (p : Page) (occ : Occurrence) :
    (p.definitionLine occ).stop = occ.span.stop ∨
      (p.definitionLine occ).stop = occ.span.stop + 1 ∧ p.raw[occ.span.stop]? = some '\n' := by
  unfold Page.definitionLine
  split
  · exact .inr ⟨rfl, ‹_›⟩
  · exact .inl rfl

/-- An edit of a definition begins with it and takes in a line end at most. -/
theorem span_of_mem_definitionEdits {r : Record} (he : e ∈ m.definitionEdits o r occ) :
    e.span.start = occ.span.start ∧ (e.span.stop = occ.span.stop ∨
      e.span.stop = occ.span.stop + 1 ∧ m.page.raw[occ.span.stop]? = some '\n') := by
  rcases definitionEdits_cases m o r occ with hn | ⟨w, hw | hw⟩
  · rw [hn] at he
    cases he
  · rw [hw, List.mem_singleton] at he
    subst he
    exact ⟨rfl, .inl rfl⟩
  · rw [hw, List.mem_singleton] at he
    subst he
    exact ⟨start_definitionLine _ _, stop_definitionLine _ _⟩

/-- Edits of two definitions that stand one behind the other are apart: the line end behind
the first is no bracket. -/
theorem apart_definitionEdits {r s : Record} (hbracket : m.page.raw[occ'.span.start]? = some '<')
    (hle : occ.span.stop ≤ occ'.span.start) (he : e ∈ m.definitionEdits o r occ)
    (hf : f ∈ m.definitionEdits o s occ') : e.span.stop ≤ f.span.start := by
  obtain ⟨-, hstop⟩ := span_of_mem_definitionEdits he
  rw [(span_of_mem_definitionEdits hf).1]
  rcases hstop with hstop | ⟨hstop, hnewline⟩
  · omega
  · have hne : occ.span.stop ≠ occ'.span.start := fun heq => by
      rw [heq, hbracket] at hnewline
      exact absurd hnewline (by decide)
    omega

/-! ## 3. Edits of one mark -/

theorem exists_chain_edit {c : Chain} (he : e ∈ (m.chainEdits o c).1) :
    ∃ e' ∈ (c.edits o.useChains (m.targets c)).1, e.span = e'.span := by
  obtain ⟨e', he', hmem⟩ := List.mem_flatMap.mp he
  exact ⟨e', he', Page.span_of_mem_change hmem⟩

/-- **An edit stays inside its mark.** -/
theorem Seats.within (h : m.Accounts p names) {k : Token} (hk : k ∈ p.tokens names)
    (hs : m.Seats o mode e k) : e.span.Within k.span := by
  cases k with
  | tag t =>
    rw [hs.1]
    exact Span.Within.refl _
  | chain t =>
    obtain ⟨c, hc, rfl, he⟩ := hs
    obtain ⟨e', he', hspan⟩ := exists_chain_edit he
    rw [hspan]
    exact Chain.within_of_mem_edits (h.mem_chains hc).2 (h.isInvocation_of_chain hc) he'
  | list t =>
    rcases hs with ⟨-, hs, -⟩ | ⟨-, r, hr, occ, ho, hocc, he⟩
    · rw [hs]
      exact Span.Within.refl _
    · rw [h.page_eq] at hocc
      have hb := (Page.isInvocation_of_mem_templates
        (Page.mem_tokens_list.mp hk)).span_of_mem_listedIn hocc
      obtain ⟨hstart, hstop⟩ := span_of_mem_definitionEdits he
      refine ⟨?_, ?_⟩
      · rw [Token.span_list]
        omega
      · rw [Token.span_list]
        omega
  | locator t => exact hs.elim

/-- **Two edits of one mark are for the same stretch or apart.** -/
theorem Seats.apart (h : m.Accounts p names) (hv : p.IsVeiled) {k : Token}
    (hk : k ∈ p.tokens names) (hs : m.Seats o mode e k) (hs' : m.Seats o mode f k) :
    e.span = f.span ∨ e.span.Apart f.span := by
  cases k with
  | tag t => exact .inl (hs.1.trans hs'.1.symm)
  | chain t =>
    obtain ⟨c, hc, rfl, he⟩ := hs
    obtain ⟨d, hd, htemplate, hf⟩ := hs'
    obtain rfl := h.chain_eq hc hd (.inr htemplate.symm)
    obtain ⟨e', he', hspan⟩ := exists_chain_edit he
    obtain ⟨f', hf', hspan'⟩ := exists_chain_edit hf
    rw [hspan, hspan']
    exact Chain.apart_edits (h.mem_chains hc).2 he' hf'
  | list t =>
    rcases hs with ⟨hm, hs, -⟩ | ⟨hm, r, hr, occ, ho, hocc, he⟩
    · rcases hs' with ⟨-, hs', -⟩ | ⟨hm', -⟩
      · exact .inl (hs.trans hs'.symm)
      · exact absurd hm' hm
    · rcases hs' with ⟨hm', -⟩ | ⟨-, s, hs, occ', ho', hocc', hf⟩
      · exact absurd hm hm'
      · rw [h.page_eq] at hocc hocc'
        have bracket : ∀ {q : Occurrence}, q ∈ p.listedIn t →
            m.page.raw[q.span.start]? = some '<' := fun hq => by
          rw [h.page_eq]
          obtain ⟨_, -, -, -, -, hseen⟩ := Page.span_of_mem_listedIn hq
          exact hv hseen (by decide)
        rcases Span.apart_of_pairwise (Page.pairwise_listedIn p t) hocc hocc' with
          rfl | hle | hle
        · -- the same definition: it belongs to one record and has one edit
          obtain ⟨rfl, -⟩ := h.unique_listed hr hs ho ho' rfl
          rcases definitionEdits_cases m o r occ with hn | ⟨w, hw | hw⟩
          · rw [hn] at he
            cases he
          · rw [hw, List.mem_singleton] at he hf
            exact .inl (by rw [he, hf])
          · rw [hw, List.mem_singleton] at he hf
            exact .inl (by rw [he, hf])
        · exact .inr (.inl (apart_definitionEdits (bracket hocc') hle he hf))
        · exact .inr (.inr (apart_definitionEdits (bracket hocc) hle hf he))
  | locator t => exact hs.elim

/-! ## 4. Every edit has its mark -/

theorem mem_listEdits {style : ListStyle} {entries : List ListEntry} :
    ∀ {ts : List Template} {served : List (Option Text)},
      e ∈ p.listEdits style entries served ts → ∃ t ∈ ts, e.span = t.span
  | [], served, he => by simp [Page.listEdits] at he
  | t :: ts, served, he => by
    rw [Page.listEdits] at he
    rcases List.mem_append.mp he with he | he
    · exact ⟨t, List.mem_cons_self, Page.span_of_mem_change he⟩
    · obtain ⟨s, hs, hspan⟩ := mem_listEdits he
      exact ⟨s, List.mem_cons_of_mem _ hs, hspan⟩

theorem mem_moveUses {r : Record} {tags : List Occurrence} (he : e ∈ m.moveUses o r tags) :
    ∃ occ ∈ tags, e.span = occ.span := by
  obtain ⟨l, hl, hmem⟩ := List.mem_flatten.mp he
  obtain ⟨i, hi, rfl⟩ := List.mem_mapIdx.mp hl
  split at hmem
  · exact ⟨_, List.getElem_mem hi, Page.span_of_mem_change hmem⟩
  · cases hmem

/-- The uses of a record and of those merged into it are uses of records of the model. -/
theorem mem_usesOf {r : Record} : occ ∈ m.usesOf r ↔ ∃ s ∈ m.merged r, occ ∈ s.uses := by
  rw [usesOf, mem_sortByStart, List.mem_flatMap]

/-- A record that stands for itself is among those merged into it. -/
theorem mem_usesOf_self {r : Record} (hr : r ∈ m.records) (hself : r.canonical = r.index)
    (ho : occ ∈ r.uses) : occ ∈ m.usesOf r := by
  refine mem_usesOf.mpr ⟨r, List.mem_filter.mpr ⟨hr, ?_⟩, ho⟩
  rw [canonical_self hself]
  exact decide_eq_true rfl

/-- An edit to a use is for the stretch of a use that is no name of a chain. -/
theorem exists_use {r : Record} (hr : r ∈ m.records) (he : e ∈ m.useEdits o mode r) :
    ∃ s ∈ m.records, ∃ occ ∈ s.uses, occ.isChained = false ∧ e.span = occ.span := by
  have moved : e ∈ (m.moveRecord o r).1.edits →
      ∃ s ∈ m.records, ∃ occ ∈ s.uses, occ.isChained = false ∧ e.span = occ.span := by
    intro he
    unfold moveRecord at he
    split at he
    · obtain ⟨occ, ho, hspan⟩ := mem_moveUses he
      obtain ⟨hu, hc⟩ := List.mem_filter.mp ho
      obtain ⟨s, hs, hsu⟩ := mem_usesOf.mp hu
      exact ⟨s, (List.mem_filter.mp hs).1, occ, hsu, by simpa using hc, hspan⟩
    · cases he
  cases mode with
  | keep =>
    obtain ⟨occ, ho, hmem⟩ := List.mem_flatMap.mp he
    split at hmem
    · rename_i w hw
      refine ⟨r, hr, occ, ho, ?_, Page.span_of_mem_change hmem⟩
      unfold Options.keptUse? at hw
      split at hw
      · cases hw
      · rename_i hc
        exact Bool.eq_false_iff.mpr hc
    · cases hmem
  | allInline => exact moved he
  | allListed => exact moved he
  | threshold n => exact moved he

/-- **Every edit has its mark**, except the one that adds lists at the end of the page. -/
theorem Accounts.exists_seat (h : m.Accounts p names) (he : e ∈ (m.plan o mode).1.edits) :
    e.span = Span.empty p.raw.length ∨ ∃ k ∈ p.marks names, m.Seats o mode e k := by
  have marked : ∀ {k : Token}, k ∈ p.tokens names → k.isLocator = false → m.Seats o mode e k →
      ∃ k ∈ p.marks names, m.Seats o mode e k := fun hk hl hs =>
    ⟨_, Page.mem_marks.mpr ⟨hk, hl⟩, hs⟩
  rw [plan_edits, List.mem_append, mem_markEdits] at he
  rcases he with he | ⟨r, hr, he⟩ | ⟨hm, r, hr, occ, ho, he⟩ | ⟨hm, he | ⟨-, he⟩⟩
  · obtain ⟨c, hc, hce⟩ := List.mem_flatMap.mp he
    exact .inr (marked (h.mem_chains hc).1 rfl ⟨c, hc, rfl, hce⟩)
  · obtain ⟨s, hs, occ, ho, hc, hspan⟩ := exists_use hr he
    obtain ⟨t, ht, rfl⟩ := h.exists_tag hs ho hc
    exact .inr (marked ht rfl ⟨hspan, r, hr, he⟩)
  · obtain ⟨t, ht, hocc⟩ := h.exists_list hr ho
    rw [← h.page_eq] at hocc
    exact .inr (marked ht rfl (.inr ⟨hm, r, hr, occ, ho, hocc, he⟩))
  · obtain ⟨t, ht, hspan⟩ := mem_listEdits he
    exact .inr (marked (h.mem_lists.mp ht) rfl (.inl ⟨hm, hspan, he⟩))
  · rw [he, h.page_eq]
    exact .inl rfl

end Model

/-! ## 5. Overlaps -/

/-- The stretches lie in two marks of the page that overlap.  Marks of one reading never
do, so the two come from different ones. -/
def Page.Overlaid (p : Page) (names : List Text) (s s' : Span) : Prop :=
  ∃ k ∈ p.marks names, ∃ l ∈ p.marks names,
    k.reading ≠ l.reading ∧ k.span.Meets l.span ∧ s.Within k.span ∧ s'.Within l.span

/-- Two planned edits are for the same stretch, apart, or inside two marks that overlap. -/
theorem Model.Accounts.edits_apart {m : Model} {p : Page} {names : List Text} {o : Options}
    {mode : Mode} {e f : Edit} (h : m.Accounts p names) (hv : p.IsVeiled)
    (he : e ∈ (m.plan o mode).1.edits) (hf : f ∈ (m.plan o mode).1.edits) :
    e.span = f.span ∨ e.span.Apart f.span ∨ p.Overlaid names e.span f.span := by
  have inside : ∀ {g : Edit} {k : Token}, k ∈ p.marks names → m.Seats o mode g k →
      g.span.Within k.span ∧ g.span.stop ≤ p.raw.length := fun hk hs => by
    have hkt := (Page.mem_marks.mp hk).1
    have hw := hs.within h hkt
    exact ⟨hw, Nat.le_trans hw.2 (Page.span_of_mem_tokens hkt).2⟩
  rcases h.exists_seat he with hend | ⟨k, hk, hs⟩ <;>
    rcases h.exists_seat hf with hend' | ⟨l, hl, hs'⟩
  · exact .inl (hend.trans hend'.symm)
  · rw [hend]
    exact .inr (.inl (.inr (inside hl hs').2))
  · rw [hend']
    exact .inr (.inl (.inl (inside hk hs).2))
  · have hkt := (Page.mem_marks.mp hk).1
    have hlt := (Page.mem_marks.mp hl).1
    have hw := (inside hk hs).1
    have hw' := (inside hl hs').1
    by_cases hread : k.reading = l.reading
    · rcases Page.apart_of_reading_eq hkt hlt hread with rfl | hapart
      · exact (hs.apart h hv hkt hs').imp_right .inl
      · exact .inr (.inl ((hapart.mono hw).symm.mono hw').symm)
    · by_cases hmeet : k.span.Meets l.span
      · exact .inr (.inr ⟨k, hk, l, hl, hread, hmeet, hw, hw'⟩)
      · exact .inr (.inl (((Span.apart_of_not_meets hmeet).mono hw).symm.mono hw').symm)

theorem plan_eq (o : Options) (title : Option Text) (t : Text) :
    (transform o title t).plan =
      ((transform o title t).placed.plan o (transform o title t).mode).1 := rfl

/-- **Settled edits stand one behind the other, except inside marks that overlap.**  This is
what a run needs so that its edits can be carried out, for every page and all options: each
edit ends before the next begins, or the two lie in two marks, found by different readings,
that have characters in common. -/
theorem pairwise_settled_edits (o : Options) (title : Option Text) (t : Text) :
    (Edit.settle (transform o title t).plan.edits).Pairwise fun a b =>
      a.span.stop ≤ b.span.start ∨
        (Page.ofText t).Overlaid o.listNames.toList a.span b.span :=
  Edit.pairwise_settle fun _ he _ hf =>
    (accounts_placed o title t).edits_apart (Page.isVeiled_ofText t) (plan_eq o title t ▸ he)
      (plan_eq o title t ▸ hf)

/-- A tag in a parameter of a chain that is taken apart: both marks are edited, and the edit of
the tag falls into that of the chain. -/
theorem overlapping_settled_edits :
    ¬ (Edit.settle (transform
        { useChains := some false, renameMap := [("b".toList, some "c".toList)] } none
        "\x7b\x7br|a|p=<ref name=\"b\"/>|group=g\x7d\x7d".toList).plan.edits).Pairwise
      fun a b => a.span.stop ≤ b.span.start := by
  decide +kernel

end CiteMarkup
