import CiteMarkup.Proofs.Chain.Citations
import CiteMarkup.Proofs.Chain.Places
import CiteMarkup.Proofs.Tag.Attributes
/-!
# What runs are written as

The links that a run is written as are what the page cites there (`readingFrom_run`), as long as
no locator moves a citation into another group (`CiteUnit.KeepsGroup`).  Whatever a locator says
is said by the last link of its unit (`said_of_links?`), as long as its parameters do not
contradict each other (`Locator.Consistent`).
-/

namespace CiteMarkup

/-! ## 1. What a locator says -/

/-- What a parameter of a locator stands for. -/
def Param.role (p : Param) : Role :=
  let key := if p.isKeyed then p.name.lower else []
  if key.isEmpty || key = "p".toList || key = "page".toList then .page
  else if key = "pp".toList || key = "pages".toList then .pages
  else if key = "at".toList || key = "loc".toList || key = "location".toList then .place
  else if key = "group".toList || key = "grp".toList || key = "g".toList then .group
  else .other

/-- What a locator says in a role. -/
def Locator.part (l : Locator) : Role → Option Text
  | .group => l.group
  | .page => l.page
  | .pages => l.pages
  | .place => l.place
  | .name | .other => none

/-- Parameters of a locator that stand for the same say the same. -/
def Locator.Consistent (t : Text) : Prop :=
  ∀ q ∈ (Page.bare t).params, ∀ q' ∈ (Page.bare t).params, q.role = q'.role → q.value = q'.value

instance (t : Text) : Decidable (Locator.Consistent t) :=
  inferInstanceAs (Decidable (∀ q ∈ _, ∀ q' ∈ _, _ → _))

section Locator

variable {l : Locator} {p q : Param} {params : List Param} {role : Role} {v : Text}

/-- What one more parameter does to a locator. -/
theorem Locator.add_cases (l : Locator) (p : Param) :
    (p.role = .page ∧ l.add p = { l with page := some p.value }) ∨
    (p.role = .pages ∧ ∃ key, l.add p = { l with pages := some p.value, pagesKey := key }) ∨
    (p.role = .place ∧ l.add p = { l with place := some p.value }) ∨
    (p.role = .group ∧ l.add p = { l with group := some p.value }) ∨
    (p.role = .other ∧ l.add p = { l with hasOther := true }) := by
  simp only [Locator.add, Param.role]
  generalize (if p.isKeyed then p.name.lower else []) = key
  by_cases hpage : (key.isEmpty || key = "p".toList || key = "page".toList) = true
  · rw [if_pos hpage, if_pos hpage]
    exact .inl ⟨rfl, rfl⟩
  rw [if_neg hpage, if_neg hpage]
  refine .inr ?_
  by_cases hpages : (decide (key = "pp".toList) || decide (key = "pages".toList)) = true
  · rw [if_pos hpages, if_pos hpages]
    exact .inl ⟨rfl, _, rfl⟩
  rw [if_neg hpages, if_neg hpages]
  refine .inr ?_
  by_cases hplace : (key = "at".toList || key = "loc".toList || key = "location".toList) = true
  · rw [if_pos hplace, if_pos hplace]
    exact .inl ⟨rfl, rfl⟩
  rw [if_neg hplace, if_neg hplace]
  refine .inr ?_
  split
  · exact .inl ⟨rfl, rfl⟩
  · exact .inr ⟨rfl, rfl⟩

theorem Locator.part_add (l : Locator) (p : Param) (hrole : role ≠ .other) :
    (l.add p).part role = if p.role = role then some p.value else l.part role := by
  rcases l.add_cases p with ⟨hp, h⟩ | ⟨hp, key, h⟩ | ⟨hp, h⟩ | ⟨hp, h⟩ | ⟨hp, h⟩
  · rw [hp, h]
    cases role <;> rfl
  · rw [hp, h]
    cases role <;> rfl
  · rw [hp, h]
    cases role <;> rfl
  · rw [hp, h]
    cases role <;> rfl
  · rw [hp, h, if_neg (Ne.symm hrole)]
    rfl

theorem Locator.hasOther_add (l : Locator) (p : Param) :
    (l.add p).hasOther = (l.hasOther || decide (p.role = .other)) := by
  rcases l.add_cases p with ⟨hp, h⟩ | ⟨hp, key, h⟩ | ⟨hp, h⟩ | ⟨hp, h⟩ | ⟨hp, h⟩ <;>
    simp [hp, h]

theorem Locator.part_foldl (hrole : role ≠ .other)
    (h : ∀ q ∈ params, q.role = role → q.value = v) (hl : l.part role = some v) :
    (params.foldl Locator.add l).part role = some v := by
  induction params generalizing l with
  | nil => exact hl
  | cons p params ih =>
    refine ih (fun q hq => h q (List.mem_cons_of_mem _ hq)) ?_
    rw [Locator.part_add _ _ hrole]
    split
    · rename_i hp
      rw [h p List.mem_cons_self hp]
    · exact hl

/-- What one of several parameters says, if the others do not contradict it. -/
theorem Locator.part_foldl_of_mem (hq : q ∈ params) (hrole : q.role ≠ .other)
    (h : ∀ q' ∈ params, q'.role = q.role → q'.value = q.value) :
    (params.foldl Locator.add l).part q.role = some q.value := by
  induction params generalizing l with
  | nil => cases hq
  | cons p params ih =>
    have hrest := fun q' hq' => h q' (List.mem_cons_of_mem _ hq')
    rcases List.mem_cons.mp hq with rfl | hq
    · rw [List.foldl_cons]
      refine Locator.part_foldl hrole hrest ?_
      rw [Locator.part_add _ _ hrole, if_pos rfl]
    · exact ih hq hrest

theorem Locator.hasOther_foldl (l : Locator) (params : List Param) :
    (params.foldl Locator.add l).hasOther =
      (l.hasOther || params.any fun p => decide (p.role = .other)) := by
  induction params generalizing l with
  | nil => simp
  | cons p params ih =>
    rw [List.foldl_cons, ih, Locator.hasOther_add, List.any_cons, Bool.or_assoc]

/-- **A locator says what each of its parameters says**, if they agree and are all known. -/
theorem Locator.part_ofText {t : Text} (ht : Locator.Consistent t)
    (hknown : (Locator.ofText t).hasOther = false) (hq : q ∈ (Page.bare t).params) :
    q.role ≠ .other ∧ (Locator.ofText t).part q.role = some q.value := by
  have hrole : q.role ≠ .other := by
    intro hother
    rw [Locator.ofText, Locator.hasOther_foldl, Bool.or_eq_false_iff, List.any_eq_false] at hknown
    exact hknown.2 q hq (by simp [hother])
  exact ⟨hrole, Locator.part_foldl_of_mem hq hrole fun q' hq' h => ht q' hq' q hq h⟩

end Locator

/-! ## 2. Links with locators -/

section Locate

variable {l l' : Link} {at_ : Locator} {old new x : Option Text} {v : Text} {ls ls' : List Link}

/-- Statements that agree: the new one, or the old one if nothing new is said. -/
theorem agree?_eq (h : agree? old new = some x) : x = (new.bind Text.nonempty?).or old := by
  unfold agree? at h
  split at h
  · rename_i hnew
    rw [← Option.some.inj h, hnew]
    rfl
  · rename_i v hnew
    split at h
    · rw [← Option.some.inj h, hnew]
      rfl
    · rename_i w hold
      split at h
      · rename_i hwv
        obtain ⟨w', rfl, hw⟩ := Option.bind_eq_some_iff.mp hold
        rw [← Option.some.inj h, hnew, eq_of_nonempty? hw, hwv]
        rfl
      · cases h

theorem Link.part_of_locate? (h : l.locate? at_ = some l') (role : Role) :
    l'.part role = ((at_.part role).bind Text.nonempty?).or (l.part role) := by
  simp only [Link.locate?, Option.bind_eq_bind, Option.bind_eq_some_iff, Option.pure_def,
    Option.some.injEq] at h
  obtain ⟨page, hpage, pages, hpages, place, hplace, group, hgroup, rfl⟩ := h
  cases role with
  | name => rfl
  | other => rfl
  | group => exact agree?_eq hgroup
  | page => exact agree?_eq hpage
  | pages => exact agree?_eq hpages
  | place => exact agree?_eq hplace

theorem Link.name_of_locate? (h : l.locate? at_ = some l') : l'.name = l.name := by
  simp only [Link.locate?, Option.bind_eq_bind, Option.bind_eq_some_iff, Option.pure_def,
    Option.some.injEq] at h
  obtain ⟨page, hpage, pages, hpages, place, hplace, group, hgroup, rfl⟩ := h
  rfl

/-- A link that keeps its group says where to look as the locator does. -/
theorem Link.eq_locatedBy (h : l.locate? at_ = some l') (hgroup : l'.group = l.group) :
    l' = l.locatedBy at_ := by
  have hpage := Link.part_of_locate? h .page
  have hpages := Link.part_of_locate? h .pages
  have hplace := Link.part_of_locate? h .place
  have hname := Link.name_of_locate? h
  obtain ⟨name, group, page, pages, place⟩ := l'
  simp only [Link.part, Locator.part] at hpage hpages hplace hgroup hname
  subst hpage hpages hplace hgroup hname
  rfl

/-- Only the last link is changed by a locator. -/
theorem exists_of_locateLast? (h : locateLast? at_ ls = some ls') :
    ∃ front l l', ls = front ++ [l] ∧ ls' = front ++ [l'] ∧ l.locate? at_ = some l' := by
  induction ls generalizing ls' with
  | nil => cases h
  | cons l ls ih =>
    cases ls with
    | nil =>
      obtain ⟨l', hl', rfl⟩ := Option.map_eq_some_iff.mp h
      exact ⟨[], l, l', rfl, rfl, hl'⟩
    | cons m r =>
      obtain ⟨rest, hrest, rfl⟩ := Option.map_eq_some_iff.mp h
      obtain ⟨front, k, k', heq, heq', hk⟩ := ih hrest
      exact ⟨l :: front, k, k', by rw [heq]; rfl, by rw [heq']; rfl, hk⟩

theorem locateLast_append_singleton (behind : List Locator) (front : List Link) (l : Link) :
    locateLast behind (front ++ [l]) = front ++ [behind.foldl Link.locatedBy l] := by
  induction front with
  | nil => rfl
  | cons m front ih =>
    cases front with
    | nil => rfl
    | cons k front => exact congrArg (m :: ·) ih

theorem locateLast_append (behind : List Locator) (front : List Link) (hne : ls ≠ []) :
    locateLast behind (front ++ ls) = front ++ locateLast behind ls := by
  obtain ⟨init, l, rfl⟩ := (List.eq_nil_or_concat' ls).resolve_left hne
  rw [← List.append_assoc, locateLast_append_singleton, locateLast_append_singleton,
    List.append_assoc]

@[simp] theorem locateLast_nil_behind (ls : List Link) : locateLast [] ls = ls := by
  rcases List.eq_nil_or_concat' ls with rfl | ⟨front, l, rfl⟩
  · rfl
  · exact locateLast_append_singleton [] front l

end Locate
/-! ## 3. Links of citations and units -/

/-- No locator says that the citation before it is in another group. -/
def CiteUnit.KeepsGroup (u : CiteUnit) : Prop :=
  ∀ ls ls', u.cite.links? = some ls → u.links? = some ls' → ls'.map (·.group) = ls.map (·.group)

instance (u : CiteUnit) : Decidable u.KeepsGroup :=
  decidable_of_iff (∀ ls ∈ u.cite.links?, ∀ ls' ∈ u.links?, ls'.map (·.group) = ls.map (·.group))
    ⟨fun h ls ls' hls hls' => h ls hls ls' hls', fun h ls hls ls' hls' => h ls ls' hls hls'⟩

section Units

variable {seen : Text} {u : CiteUnit} {ls ls' : List Link}

/-- The links of a citation that can be joined are what it cites. -/
theorem Cite.links_eq {c : Cite} (hc : c.token.cite? = some c) (h : c.links? = some ls) :
    c.token.links = ls ∧ ls ≠ [] := by
  cases c with
  | tag t =>
    have hempty : t.isFull = false := by
      cases hfull : t.isFull with
      | false => rfl
      | true => simp [token, Token.cite?, hfull] at hc
    simp only [links?] at h
    split at h
    · obtain ⟨n, hn, rfl⟩ := Option.map_eq_some_iff.mp h
      simp [token, Token.links, hempty, RefTag.link, hn]
    · cases h
  | chain t =>
    simp only [links?, links?_eq] at h
    split at h
    · rename_i hlinks
      obtain rfl := Option.some.inj h
      refine ⟨rfl, fun hnil => ?_⟩
      have hnames : (((placedEntries t.paramText).map (·.toEntry)).filter (·.isName)) = [] :=
        List.map_eq_nil_iff.mp hnil
      simp [areLinks, hnames] at hlinks
    · cases h

/-- What a unit is written as: the links of its citation, the last one with its locator. -/
theorem CiteUnit.exists_of_links? (h : u.links? = some ls') :
    ∃ ls, u.cite.links? = some ls ∧
      ((u.locator = none ∧ ls' = ls) ∨
        ∃ t, u.locator = some t ∧ (Locator.ofText t.paramText).hasOther = false ∧
          locateLast? (Locator.ofText t.paramText) ls = some ls') := by
  simp only [links?, Option.bind_eq_bind, Option.bind_eq_some_iff] at h
  obtain ⟨ls, hls, h⟩ := h
  refine ⟨ls, hls, ?_⟩
  split at h
  · rename_i hnone
    exact .inl ⟨hnone, (Option.some.inj h).symm⟩
  · rename_i t ht
    split at h
    · cases h
    · rename_i hother
      exact .inr ⟨t, ht, Bool.eq_false_iff.mpr hother, h⟩

/-- **A unit cites what it is written as**, whatever locators stand behind it. -/
theorem locateLast_unit (hu : u.IsUnit seen) (h : u.links? = some ls') (hgroup : u.KeepsGroup)
    (behind : List Locator) :
    locateLast ((u.locator.map fun t => Locator.ofText t.paramText).toList ++ behind)
      u.cite.token.links = locateLast behind ls' ∧ ls' ≠ [] := by
  obtain ⟨ls, hcite, ⟨hnone, rfl⟩ | ⟨t, ht, -, hlocate⟩⟩ := CiteUnit.exists_of_links? h
  · obtain ⟨heq, hne⟩ := Cite.links_eq hu.cite hcite
    rw [hnone, heq]
    exact ⟨rfl, hne⟩
  · obtain ⟨heq, -⟩ := Cite.links_eq hu.cite hcite
    obtain ⟨front, l, l', rfl, rfl, hl⟩ := exists_of_locateLast? hlocate
    have hkeeps : l'.group = l.group := by
      have hgroups := hgroup _ _ hcite h
      rw [List.map_append, List.map_append] at hgroups
      simpa using List.append_cancel_left hgroups
    rw [ht, heq, Link.eq_locatedBy hl hkeeps]
    exact ⟨by simp [locateLast_append_singleton], by simp⟩

/-- **What a locator says is said by the last link of its unit.** -/
theorem said_of_links? {t : Template} {q : Param} (h : u.links? = some ls')
    (ht : u.locator = some t) (hc : Locator.Consistent t.paramText)
    (hq : q ∈ (Page.bare t.paramText).params) (hvalue : q.value ≠ []) :
    ∃ l ∈ ls', l.part q.role = some q.value := by
  obtain ⟨ls, hcite, ⟨hnone, -⟩ | ⟨t', ht', hknown, hlocate⟩⟩ := CiteUnit.exists_of_links? h
  · rw [ht] at hnone
    cases hnone
  · obtain rfl : t = t' := Option.some.inj (ht.symm.trans ht')
    obtain ⟨front, l, l', rfl, rfl, hl⟩ := exists_of_locateLast? hlocate
    refine ⟨l', by simp, ?_⟩
    rw [Link.part_of_locate? hl, (Locator.part_ofText hc hknown hq).2, Option.bind_some,
      nonempty?_of_ne hvalue]
    rfl

end Units

/-! ## 4. Runs -/

section Runs

variable {seen : Text} {run : List CiteUnit} {u : CiteUnit} {links : List Link}

theorem locatorBehind?_token (c : Cite) (stop : Nat) (r : List Token) :
    locatorBehind? seen stop (c.token :: r) = none := by
  cases c <;> rfl

/-- The marks of a unit, with what stands behind it. -/
theorem readingFrom_unit (hu : u.IsUnit seen) (stop : Nat) (r : List Token) :
    readingFrom seen stop (u.tokens ++ r) =
      ⟨[], locateLast ((u.locator.map fun t => Locator.ofText t.paramText).toList ++
          (readingFrom seen u.last.span.stop r).leading) u.cite.token.links ++
        (readingFrom seen u.last.span.stop r).links⟩ := by
  unfold CiteUnit.tokens CiteUnit.last
  cases ht : u.locator with
  | none =>
    simp only [Option.map_none, Option.toList_none, List.nil_append, Option.getD_none,
      List.cons_append, readingFrom, locatorBehind?_token]
  | some t =>
    have hbehind : locatorBehind? seen u.cite.token.span.stop (.locator t :: r) = some t := by
      rw [CiteUnit.span_token]
      exact if_pos (hu.locator t ht)
    simp only [Option.map_some, Option.toList_some, Option.getD_some, List.cons_append,
      List.nil_append, readingFrom, locatorBehind?_token, hbehind]
    rfl

/-- **A run cites the links that it is written as.** -/
theorem readingFrom_run (hrun : IsRun seen run) (hlinks : runLinks run = .ok links)
    (hgroups : ∀ u ∈ run, u.KeepsGroup) {last : CiteUnit} (hlast : run.getLast? = some last)
    (stop : Nat) (r : List Token) :
    readingFrom seen stop (run.flatMap CiteUnit.tokens ++ r) =
        ⟨[], locateLast (readingFrom seen last.last.span.stop r).leading links ++
          (readingFrom seen last.last.span.stop r).links⟩ ∧ links ≠ [] := by
  induction run generalizing stop links with
  | nil => cases hlast
  | cons u run ih =>
    have hu := hrun.units u List.mem_cons_self
    rw [runLinks] at hlinks
    split at hlinks
    · cases hlinks
    · rename_i ls hls
      obtain ⟨rest, hrest, rfl⟩ : ∃ rest, runLinks run = .ok rest ∧ ls ++ rest = links := by
        cases hr : runLinks run with
        | error e =>
          rw [hr] at hlinks
          cases hlinks
        | ok rest =>
          rw [hr] at hlinks
          exact ⟨rest, rfl, Except.ok.inj hlinks⟩
      have hunit := fun behind => locateLast_unit hu hls (hgroups u List.mem_cons_self) behind
      rw [List.flatMap_cons, List.append_assoc, readingFrom_unit hu]
      cases run with
      | nil =>
        obtain rfl : u = last := by simpa using hlast
        obtain rfl : [] = rest := Except.ok.inj hrest
        rw [(hunit _).1, List.append_nil]
        exact ⟨rfl, (hunit []).2⟩
      | cons v run =>
        have hrun' : IsRun seen (v :: run) :=
          ⟨by simp, fun w hw => hrun.units w (List.mem_cons_of_mem _ hw), hrun.adjacent.tail⟩
        obtain ⟨hread, hne⟩ := ih hrun' hrest (fun w hw => hgroups w (List.mem_cons_of_mem _ hw))
          (by simpa using hlast) u.last.span.stop
        rw [hread, (hunit _).1, locateLast_nil_behind, locateLast_append _ _ hne,
          List.append_assoc]
        exact ⟨rfl, by simp [hne]⟩

end Runs
/-! ## 5. Values -/

section Values

variable {p : Page} {names : List Text} {run : List CiteUnit} {u : CiteUnit} {l : Link}
  {links : List Link} {v : Text}

theorem mem_values : v ∈ l.values ↔ v = l.name ∨ ∃ role, l.part role = some v := by
  constructor
  · intro h
    rcases List.mem_cons.mp h with rfl | h
    · exact .inl rfl
    · obtain ⟨k, -, hk⟩ := List.mem_filterMap.mp h
      exact .inr ⟨_, hk⟩
  · rintro (rfl | ⟨role, hrole⟩)
    · exact List.mem_cons_self
    · have hrole' : role ≠ .name ∧ role ≠ .other := by
        constructor <;> (rintro rfl; cases hrole)
      obtain ⟨key, hkey⟩ := find?_linkKeys hrole'
      exact List.mem_cons_of_mem _
        (List.mem_filterMap.mpr ⟨_, List.mem_of_find?_eq_some hkey, hrole⟩)

/-- The entries of a parameter text are as they are read. -/
theorem isRead_of_mem_placedEntries {t : Text} {e : Entry}
    (h : e ∈ (placedEntries t).map (·.toEntry)) : e.IsRead := by
  obtain ⟨offset, segments, heq, -⟩ := placedEntries_eq t
  rw [heq, map_toEntry_entriesFrom] at h
  exact isRead_of_mem_readEntries h

theorem isValue_of_mem_entryLinks {entries : List Entry} (h : ∀ e ∈ entries, IsValue e.value)
    (hl : l ∈ entryLinks entries) (hv : v ∈ l.values) : IsValue v := by
  obtain ⟨e, he, rfl⟩ := List.mem_map.mp hl
  have hvalue : ∀ role, valueAt? entries role e.index = some v → IsValue v := by
    intro role hrole
    obtain ⟨f, hf, rfl⟩ := Option.map_eq_some_iff.mp hrole
    exact h f (List.mem_of_find?_eq_some hf)
  rcases mem_values.mp hv with rfl | ⟨role, hrole⟩
  · exact h e (List.mem_filter.mp he).1
  · cases role with
    | name => cases hrole
    | other => cases hrole
    | group => exact hvalue _ hrole
    | page => exact hvalue _ hrole
    | pages => exact hvalue _ hrole
    | place => exact hvalue _ hrole

theorem exists_attributes_of_mem_refTags {t : RefTag} (h : t ∈ p.refTags) :
    ∃ w, t.attributes = Attributes.ofText w := by
  rw [Page.mem_refTags, Page.fullTags_eq, Page.emptyTags_eq, Page.emptyFindings] at h
  rcases h with h | h
  · obtain ⟨f, -, rfl⟩ := List.mem_map.mp h
    exact ⟨_, rfl⟩
  · obtain ⟨f, -, rfl⟩ := List.mem_map.mp (List.mem_filter.mp h).1
    exact ⟨_, rfl⟩

/-- What a citation says is a value. -/
theorem isValue_of_cite {c : Cite} {ls : List Link} (hc : c.token ∈ p.tokens names)
    (hcite : c.token.cite? = some c) (h : c.links? = some ls) (hl : l ∈ ls) (hv : v ∈ l.values) :
    IsValue v := by
  cases c with
  | chain t =>
    rw [← (Cite.links_eq hcite h).1] at hl
    exact isValue_of_mem_entryLinks (fun e he => (isRead_of_mem_placedEntries he).value) hl hv
  | tag t =>
    obtain ⟨w, hw⟩ := exists_attributes_of_mem_refTags
      (List.mem_filter.mp (Page.mem_tokens_tag.mp hc)).1
    simp only [Cite.links?] at h
    split at h
    · obtain ⟨n, hn, rfl⟩ := Option.map_eq_some_iff.mp h
      obtain rfl := List.mem_singleton.mp hl
      have hattribute : ∀ key x, t.attributes.value? key = some x → IsValue x := fun key x hx => by
        obtain ⟨hne, htrim⟩ := Attributes.isValue_of_value? (hw ▸ hx)
        exact ⟨hne, htrim⟩
      rcases mem_values.mp hv with rfl | ⟨role, hrole⟩
      · exact hattribute _ _ hn
      · cases role with
        | group => exact hattribute _ _ hrole
        | name => cases hrole
        | other => cases hrole
        | page => cases hrole
        | pages => cases hrole
        | place => cases hrole
    · cases h

theorem trimmed_of_mem_paramsFrom {q : Param} {lengths : List Nat} {offset count : Nat}
    (h : q ∈ p.paramsFrom offset count lengths) : q.value.Trimmed := by
  induction lengths generalizing offset count with
  | nil => cases h
  | cons n ns ih =>
    rw [Page.paramsFrom] at h
    split at h
    · rcases List.mem_cons.mp h with rfl | h
      · exact Text.trimmed_trim _
      · exact ih h
    · rcases List.mem_cons.mp h with rfl | h
      · exact Text.trimmed_trim _
      · exact ih h

theorem trimmed_of_mem_params {q : Param} (h : q ∈ p.params) : q.value.Trimmed := by
  unfold Page.params at h
  split at h
  · cases h
  · exact trimmed_of_mem_paramsFrom h

/-- What a locator says is the value of one of its parameters. -/
theorem exists_of_part_foldl {at_ : Locator} {params : List Param} {role : Role}
    (h : (params.foldl Locator.add at_).part role = some v) :
    at_.part role = some v ∨ ∃ q ∈ params, q.value = v := by
  induction params generalizing at_ with
  | nil => exact .inl h
  | cons q params ih =>
    rcases ih h with h | ⟨q', hq', rfl⟩
    · by_cases hrole : role = .other
      · subst hrole
        cases h
      · rw [Locator.part_add _ _ hrole] at h
        split at h
        · exact .inr ⟨q, List.mem_cons_self, Option.some.inj h⟩
        · exact .inl h
    · exact .inr ⟨q', List.mem_cons_of_mem _ hq', rfl⟩

theorem trimmed_of_part_ofText {t : Text} {role : Role}
    (h : (Locator.ofText t).part role = some v) : v.Trimmed := by
  rcases exists_of_part_foldl h with h | ⟨q, hq, rfl⟩
  · cases role <;> cases h
  · exact trimmed_of_mem_params hq

theorem isValue_of_unit {ls : List Link} (hu : u.IsUnit p.seen)
    (hmem : u.cite.token ∈ p.tokens names) (h : u.links? = some ls) (hl : l ∈ ls)
    (hv : v ∈ l.values) : IsValue v := by
  obtain ⟨cited, hcite, ⟨-, rfl⟩ | ⟨t, -, -, hlocate⟩⟩ := CiteUnit.exists_of_links? h
  · exact isValue_of_cite hmem hu.cite hcite hl hv
  · obtain ⟨front, k, k', rfl, rfl, hk⟩ := exists_of_locateLast? hlocate
    rcases List.mem_append.mp hl with hl | hl
    · exact isValue_of_cite hmem hu.cite hcite (List.mem_append_left _ hl) hv
    · obtain rfl := List.mem_singleton.mp hl
      have hold : ∀ x ∈ k.values, IsValue x := fun x hx =>
        isValue_of_cite hmem hu.cite hcite (List.mem_append_right _ List.mem_cons_self) hx
      rcases mem_values.mp hv with rfl | ⟨role, hrole⟩
      · rw [Link.name_of_locate? hk]
        exact hold _ List.mem_cons_self
      · rw [Link.part_of_locate? hk] at hrole
        rcases Option.or_eq_some_iff.mp hrole with hnew | ⟨-, hpart⟩
        · obtain ⟨w, hw, hne⟩ := Option.bind_eq_some_iff.mp hnew
          obtain rfl := eq_of_nonempty? hne
          refine ⟨?_, trimmed_of_part_ofText hw⟩
          rintro rfl
          cases hne
        · exact hold v (mem_values.mpr (.inr ⟨role, hpart⟩))

/-- The links of a run are those of its units. -/
theorem mem_runLinks (h : runLinks run = .ok links) :
    (∀ l ∈ links, ∃ u ∈ run, ∃ ls, u.links? = some ls ∧ l ∈ ls) ∧
      ∀ u ∈ run, ∃ ls, u.links? = some ls ∧ ∀ l ∈ ls, l ∈ links := by
  induction run generalizing links with
  | nil =>
    obtain rfl : [] = links := Except.ok.inj h
    simp
  | cons u run ih =>
    rw [runLinks] at h
    split at h
    · cases h
    · rename_i ls hls
      cases hr : runLinks run with
      | error e =>
        rw [hr] at h
        cases h
      | ok rest =>
        rw [hr] at h
        obtain rfl : ls ++ rest = links := Except.ok.inj h
        obtain ⟨hfrom, hto⟩ := ih hr
        refine ⟨fun l hl => ?_, fun w hw => ?_⟩
        · rcases List.mem_append.mp hl with hl | hl
          · exact ⟨u, List.mem_cons_self, ls, hls, hl⟩
          · obtain ⟨w, hw, ls', hls', hl'⟩ := hfrom l hl
            exact ⟨w, List.mem_cons_of_mem _ hw, ls', hls', hl'⟩
        · rcases List.mem_cons.mp hw with rfl | hw
          · exact ⟨ls, hls, fun l hl => List.mem_append_left _ hl⟩
          · obtain ⟨ls', hls', hall⟩ := hto w hw
            exact ⟨ls', hls', fun l hl => List.mem_append_right _ (hall l hl)⟩

/-- **What the links of a run say are values.** -/
theorem isValue_of_run (hunits : ∀ u ∈ run, u.IsUnit p.seen ∧ u.cite.token ∈ p.tokens names)
    (h : runLinks run = .ok links) (hl : l ∈ links) (hv : v ∈ l.values) : IsValue v := by
  obtain ⟨u, hu, ls, hls, hmem⟩ := (mem_runLinks h).1 l hl
  exact isValue_of_unit (hunits u hu).1 (hunits u hu).2 hls hmem hv

end Values
end CiteMarkup
