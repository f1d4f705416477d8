import CiteMarkup.Proofs.Chain.Collapse
import CiteMarkup.Proofs.Template.Written
/-!
# Written locators

The pages and places of a name are written into a locator, each under a key of its own.  A locator
that is written so is read back with all of them (`part_writeLocator`), if no two entries of the
name have the same role: a locator keeps only the last of what is said twice.
-/

namespace CiteMarkup

/-! ## 1. Keys of a locator -/

/-- The roles that a locator can hold. -/
def locatedRoles : List Role := [.page, .pages, .place]

/-- The parameters of the locator that entries are written into. -/
def locatorSegments (own : List Entry) : List Text := locatedRoles.flatMap (locatorParams own)

section Keys

variable {own : List Entry} {e : Entry} {key s : Text} {p : Param}

theorem locatorKey?_isSome_iff (e : Entry) :
    e.locatorKey?.isSome = true ↔ e.role ∈ locatedRoles := by
  unfold Entry.locatorKey? locatedRoles
  cases e.role <;> simp

/-- The keys that entries are written with in a locator. -/
theorem locatorKey_cases (h : e.locatorKey? = some key) :
    (e.role = .page ∧ key = "p".toList) ∨
    (e.role = .pages ∧ (key = "pages".toList ∨ key = "pp".toList)) ∨
    (e.role = .place ∧ key = "at".toList) := by
  unfold Entry.locatorKey? at h
  split at h
  · exact .inl ⟨‹_›, (Option.some.inj h).symm⟩
  · refine .inr (.inl ⟨‹_›, ?_⟩)
    split at h
    · exact .inl (Option.some.inj h).symm
    · exact .inr (Option.some.inj h).symm
  · exact .inr (.inr ⟨‹_›, (Option.some.inj h).symm⟩)
  · cases h

theorem isKey_of_locatorKey (h : e.locatorKey? = some key) : IsKey key ∧ key.lower = key := by
  have hall : ∀ k ∈ ["p".toList, "pages".toList, "pp".toList, "at".toList],
      k.isEmpty = false ∧ k.all (fun c => isAsciiLetter c || isAsciiDigit c) = true ∧
        Text.lower k = k := by decide
  have hmem : key ∈ ["p".toList, "pages".toList, "pp".toList, "at".toList] := by
    rcases locatorKey_cases h with ⟨-, rfl⟩ | ⟨-, rfl | rfl⟩ | ⟨-, rfl⟩ <;> simp
  obtain ⟨hne, hchars, hlower⟩ := hall key hmem
  exact ⟨⟨by simpa using hne, List.all_eq_true.mp hchars⟩, hlower⟩

/-- A parameter under the key of an entry has the role of the entry. -/
theorem role_of_locatorKey (h : e.locatorKey? = some key) (hkeyed : p.isKeyed = true)
    (hname : p.name.lower = key) : p.role = e.role := by
  unfold Param.role
  rw [hkeyed, hname]
  rcases locatorKey_cases h with ⟨hrole, rfl⟩ | ⟨hrole, rfl | rfl⟩ | ⟨hrole, rfl⟩ <;>
    rw [hrole] <;> decide

/-- The parameters of a locator are the entries that it can hold. -/
theorem mem_locatorSegments : s ∈ locatorSegments own ↔
    ∃ e ∈ own, ∃ key, e.locatorKey? = some key ∧ s = assignment key e.value := by
  constructor
  · intro h
    obtain ⟨role, -, hs⟩ := List.mem_flatMap.mp h
    obtain ⟨e, he, hs⟩ := List.mem_filterMap.mp hs
    obtain ⟨key, hkey, rfl⟩ := Option.map_eq_some_iff.mp hs
    exact ⟨e, (List.mem_filter.mp he).1, key, hkey, rfl⟩
  · rintro ⟨e, he, key, hkey, rfl⟩
    have hrole := (locatorKey?_isSome_iff e).mp (by rw [hkey]; rfl)
    refine List.mem_flatMap.mpr ⟨e.role, hrole, List.mem_filterMap.mpr ⟨e, ?_, by rw [hkey]; rfl⟩⟩
    exact List.mem_filter.mpr ⟨he, by simp⟩

theorem writeLocator_eq (own : List Entry) : writeLocator own =
    if (locatorSegments own).isEmpty then []
    else writeTemplate locatorName (locatorSegments own) := rfl

end Keys

/-! ## 2. Reading a written locator -/

/-- The pages and places among entries can be written into a locator: they stand there, and no
two of them have the same role. -/
structure CanBeLocated (own : List Entry) : Prop where
  values : ∀ e ∈ own, e.role ∈ locatedRoles → IsValue e.value ∧ StandsInChain e.value
  roles : (own.map (·.role)).Nodup

section Written

variable {own : List Entry} {e : Entry} {names : List Text}

/-- What an assignment is read as in a parameter text. -/
theorem segmentPair?_assignment {key v : Text} (hkey : IsKey key) (hlower : key.lower = key)
    (hv : IsValue v) (htag : '<' ∉ v) : segmentPair? (assignment key v) = some (key, v) ∧
      (equalsSign? (assignment key v).veil).isSome = true := by
  have hkeytag : '<' ∉ key := fun hmem => ne_of_isKey hkey hmem (by decide) rfl
  have hveil : (assignment key v).veil = assignment key v :=
    veil_of_untagged (by simp [assignment, hkeytag, htag])
  have hsign : equalsSign? (assignment key v) = some key.length :=
    equalsSign?_label (isLabel_of_isKey hkey) v
  have hdrop : (assignment key v).drop (key.length + 1) = v := by
    rw [assignment, List.drop_length_add_append]
    rfl
  rw [segmentPair?, hveil, hsign, Option.map_some, hdrop, assignment, List.take_left,
    (trimmed_of_isKey hkey).trim_eq, hlower, hv.trimmed.trim_eq]
  exact ⟨rfl, rfl⟩

theorem standsInChain_locatorSegments (h : CanBeLocated own) :
    ∀ s ∈ locatorSegments own, StandsInChain s := by
  intro s hs
  obtain ⟨e, he, key, hkey, rfl⟩ := mem_locatorSegments.mp hs
  obtain ⟨-, hstands⟩ := h.values e he ((locatorKey?_isSome_iff e).mp (by rw [hkey]; rfl))
  exact hstands.assignment_of_isKey (isKey_of_locatorKey hkey).1

/-- The parameters of a written locator, as they are read. -/
theorem params_locator (h : CanBeLocated own) :
    (∀ q ∈ (Page.bare (Text.join ['|'] (locatorSegments own))).params,
      ∃ e ∈ own, q.role = e.role ∧ q.value = e.value) ∧
    ∀ e ∈ own, e.role ∈ locatedRoles →
      ∃ q ∈ (Page.bare (Text.join ['|'] (locatorSegments own))).params,
        q.role = e.role ∧ q.value = e.value := by
  have hstands := standsInChain_locatorSegments h
  have hpair : ∀ e ∈ own, ∀ key, e.locatorKey? = some key →
      segmentPair? (assignment key e.value) = some (key, e.value) ∧
        (equalsSign? (assignment key e.value).veil).isSome = true := by
    intro e he key hkey
    obtain ⟨hv, hplain⟩ := h.values e he ((locatorKey?_isSome_iff e).mp (by rw [hkey]; rfl))
    obtain ⟨hiskey, hlower⟩ := isKey_of_locatorKey hkey
    exact segmentPair?_assignment hiskey hlower hv hplain.plain.untagged
  have huntagged : '<' ∉ Text.join ['|'] (locatorSegments own) :=
    (isPlainText_join fun s hs => (hstands s hs).plain).untagged
  have hpage : Page.bare (Text.join ['|'] (locatorSegments own)) =
      Page.ofText (Text.join ['|'] (locatorSegments own)) := by
    simp only [Page.ofText, Page.bare, veil_of_untagged huntagged]
  have hparams : (Page.ofText (Text.join ['|'] (locatorSegments own))).params =
      keyedParams 0 (locatorSegments own) := by
    refine params_join (fun s hs => veilsAlone_of_untagged (hstands s hs).plain.untagged)
      (fun s hs => ?_) fun s hs => ?_
    · rw [veil_of_untagged (hstands s hs).plain.untagged]
      exact (hstands s hs).closed
    · obtain ⟨e, he, key, hkey, rfl⟩ := mem_locatorSegments.mp hs
      exact (hpair e he key hkey).2
  have hpairs := map_keyedParams 0 (locatorSegments own)
  rw [hpage, hparams]
  constructor
  · intro q hq
    have hmem : (q.name.lower, q.value) ∈ (locatorSegments own).filterMap segmentPair? :=
      hpairs ▸ List.mem_map_of_mem hq
    obtain ⟨s, hs, hq'⟩ := List.mem_filterMap.mp hmem
    obtain ⟨e, he, key, hkey, rfl⟩ := mem_locatorSegments.mp hs
    obtain ⟨hname, hvalue⟩ :=
      Prod.mk.inj (Option.some.inj (hq'.symm.trans (hpair e he key hkey).1))
    exact ⟨e, he, role_of_locatorKey hkey (isKeyed_of_mem_keyedParams 0 hq) hname, hvalue⟩
  · intro e he hrole
    obtain ⟨key, hkey⟩ := Option.isSome_iff_exists.mp ((locatorKey?_isSome_iff e).mpr hrole)
    have hs := mem_locatorSegments.mpr ⟨e, he, key, hkey, rfl⟩
    have hmem : (key, e.value) ∈ (keyedParams 0 (locatorSegments own)).map
        fun p => (p.name.lower, p.value) := by
      rw [hpairs]
      exact List.mem_filterMap.mpr ⟨_, hs, (hpair e he key hkey).1⟩
    obtain ⟨q, hq, heq⟩ := List.mem_map.mp hmem
    obtain ⟨hname, hvalue⟩ := Prod.mk.inj heq
    exact ⟨q, hq, role_of_locatorKey hkey (isKeyed_of_mem_keyedParams 0 hq) hname, hvalue⟩

/-- **A written locator says what it has been written from.** -/
theorem part_locator (h : CanBeLocated own) (he : e ∈ own) (hrole : e.role ∈ locatedRoles) :
    (Locator.ofText (Text.join ['|'] (locatorSegments own))).part e.role = some e.value := by
  obtain ⟨hfrom, hto⟩ := params_locator h
  obtain ⟨q, hq, hqrole, hqvalue⟩ := hto e he hrole
  have hother : q.role ≠ .other := by
    rw [hqrole]
    rintro heq
    rw [heq] at hrole
    exact absurd hrole (by decide)
  rw [← hqrole, ← hqvalue]
  refine Locator.part_foldl_of_mem hq hother fun q' hq' hsame => ?_
  -- the only entry with the role is `e`
  obtain ⟨e', he', hrole', hvalue'⟩ := hfrom q' hq'
  have heq : e' = e := List.inj_on_of_nodup_map h.roles he' he
    (hrole'.symm.trans (hsame.trans hqrole))
  rw [hvalue', heq, hqvalue]

/-- **A locator that is written is read by itself**, and it is the only mark in it. -/
theorem selfContained_writeLocator (h : CanBeLocated own)
    (hnames : isNameOf names (canonicalName locatorName) = false) :
    SelfContained names (writeLocator own) ∧
      (Page.ofText (writeLocator own)).tokens names =
        if (locatorSegments own).isEmpty then []
        else [.locator (writtenInvocation locatorName (locatorSegments own))] := by
  rw [writeLocator_eq]
  split
  · exact ⟨.nil, rfl⟩
  · have hstands := standsInChain_locatorSegments h
    exact selfContained_written (by simp) hnames (isPlainText_join fun s hs => (hstands s hs).plain)

end Written

end CiteMarkup
