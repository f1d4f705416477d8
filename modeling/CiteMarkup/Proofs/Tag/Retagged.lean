import CiteMarkup.Proofs.Tag.Written
/-!
# Tags written anew

A tag that is written for a reference has a name and a group and no other attributes.  Whatever
the two are, it is one tag, since a quote in a value is written as an entity and each value
ends at its own quotes (`isTag_tagAround`, `isTag_citation`).  So if a tag is written anew with
its own group, its attributes but for the name stay the same exactly if it has none besides
name and group (`agreeButName_iff`).
-/

namespace CiteMarkup

/-! ## 1. One tag -/

/-- The body of a tag, if it has content. -/
def RefTag.body? (t : RefTag) : Option Text :=
  match t.content with
  | .none => none
  | .body b _ => some b

/-- The text is one tag: its opening has the attributes, and behind it comes the body with the
closing tag, or nothing if the tag has no content. -/
def IsTag (w : Text) (attributes : Attributes) (body : Option Text) : Prop :=
  ∃ opening rest, refOpening? w = some (opening, rest) ∧
    Attributes.ofText (w.slice refHead (refHead + opening.attributes)) = attributes ∧
    match body with
    | none => opening.isEmpty = true ∧ rest = []
    | some b => opening.isEmpty = false ∧ rest = b ++ closingTag

section Written

variable {l : Attributes}

theorem isTag_writtenTag (h : AreQuoted l) (b : Text) :
    IsTag (writtenTag l b) (Attributes.trimmed l) (some b) := by
  refine ⟨_, _, writtenTag_eq l b ▸ refOpening?_written h _, ?_, rfl, rfl⟩
  have hslice := Text.slice_between "<ref".toList (writtenAttributes l)
    ('>' :: (b ++ closingTag)) (a := refHead) (b := refHead + (writtenAttributes l).length) rfl rfl
  rw [writtenTag_eq, hslice, ← Attributes.ofText_quoted h [] rfl, List.append_nil]

theorem isTag_writtenEmptyTag (h : AreQuoted l) :
    IsTag (writtenEmptyTag l) (Attributes.trimmed l) none := by
  have hopening := refOpening?_empty h []
  rw [List.append_nil] at hopening
  refine ⟨_, _, hopening, ?_, rfl, rfl⟩
  have hslice := Text.slice_between "<ref".toList (writtenAttributes l ++ [' ']) "/>".toList
    (a := refHead) (b := refHead + ((writtenAttributes l).length + 1)) rfl (by simp; rfl)
  rw [writtenEmptyTag_eq_blank, hslice, Attributes.ofText_quoted h [' '] (by decide)]

end Written

/-! ## 2. Tags of references -/

theorem not_mem_escapedAttribute (v : Text) : '"' ∉ escapedAttribute v := by
  intro h
  obtain ⟨c, -, hc⟩ := List.mem_flatMap.mp h
  split at hc
  · exact absurd hc (by decide)
  · rename_i hne
    exact hne (List.mem_singleton.mp hc).symm

section References

variable (name group : Option Text)

theorem areQuoted_escaped : AreQuoted (escapedAttributes name group) where
  keys := by
    unfold escapedAttributes
    cases name.bind Text.nonempty? <;> cases group.bind Text.nonempty? <;>
      simp [referenceAttributes, attributeKeys]
  unquoted := by
    intro a ha
    obtain ⟨b, -, rfl⟩ := List.mem_map.mp ha
    exact not_mem_escapedAttribute b.2
  nodup := by
    unfold escapedAttributes
    cases name.bind Text.nonempty? <;> cases group.bind Text.nonempty? <;>
      simp [referenceAttributes]

/-- The attributes that a tag of a reference is read with: name and group as far as they are
not empty, with quotes as entities and no blanks around them. -/
def writtenReference : Attributes := Attributes.trimmed (escapedAttributes name group)

/-- **A tag around a body is one tag**, whatever its name and its group. -/
theorem isTag_tagAround (b : Text) :
    IsTag (tagAround name group b) (writtenReference name group) (some b) := by
  rw [tagAround_eq_writtenTag]
  exact isTag_writtenTag (areQuoted_escaped name group) b

/-- **A tag that cites is one tag**, whatever its name and its group. -/
theorem isTag_citation {n : Text} (hn : n ≠ []) :
    IsTag (citation (some n) group false) (writtenReference (some n) group) none := by
  rw [citation_eq_writtenEmptyTag group hn]
  exact isTag_writtenEmptyTag (areQuoted_escaped _ group)

theorem lookup_writtenReference (k : Text) :
    (writtenReference name group).lookup k =
      if k = "name".toList then
        (name.bind Text.nonempty?).map fun v => Text.trim (escapedAttribute v)
      else if k = "group".toList then
        (group.bind Text.nonempty?).map fun v => Text.trim (escapedAttribute v)
      else none := by
  rw [writtenReference, Attributes.trimmed, escapedAttributes, List.map_map]
  by_cases hk : k = "name".toList
  · subst hk
    cases name.bind Text.nonempty? <;> cases group.bind Text.nonempty? <;> rfl
  · have hbeq : (k == "name".toList) = false := beq_false_of_ne hk
    by_cases hk' : k = "group".toList
    · subst hk'
      cases name.bind Text.nonempty? <;> cases group.bind Text.nonempty? <;> rfl
    · have hbeq' : (k == "group".toList) = false := beq_false_of_ne hk'
      rw [if_neg hk, if_neg hk']
      cases name.bind Text.nonempty? <;> cases group.bind Text.nonempty? <;>
        simp only [referenceAttributes, List.filterMap_cons, List.filterMap_nil, Option.map_none,
          Option.map_some, List.map_cons, List.map_nil, Function.comp, List.lookup_cons,
          List.lookup_nil, hbeq, hbeq']

end References

/-! ## 3. Attributes but for the name -/

namespace Attributes

/-- The attributes are the same, with the same values, but for the name. -/
def AgreeButName (l l' : Attributes) : Prop :=
  ∀ k, k ≠ "name".toList → l.lookup k = l'.lookup k

/-- There are no attributes besides name and group, and the group is written as it is read. -/
def ArePlain (l : Attributes) : Prop :=
  ∀ a ∈ l, a.1 = "name".toList ∨ a.1 = "group".toList ∧ a.2 ≠ [] ∧ '"' ∉ a.2

instance (l : Attributes) : Decidable l.ArePlain :=
  inferInstanceAs (Decidable (∀ a ∈ l, _))

theorem nodup_firstOfEach {seen : List Text} {l : List (Text × Text)} :
    ((firstOfEach seen l).map Prod.fst).Nodup ∧
      ∀ k ∈ seen, k ∉ (firstOfEach seen l).map Prod.fst := by
  induction l generalizing seen with
  | nil => exact ⟨List.nodup_nil, fun _ _ => List.not_mem_nil⟩
  | cons a l ih =>
    rw [firstOfEach]
    split
    · exact ih
    · rename_i hseen
      obtain ⟨hnodup, hnot⟩ := @ih (a.1 :: seen)
      rw [List.map_cons]
      refine ⟨List.nodup_cons.mpr ⟨hnot _ List.mem_cons_self, hnodup⟩, fun k hk hmem => ?_⟩
      rcases List.mem_cons.mp hmem with rfl | hmem
      · exact hseen (by simpa using hk)
      · exact hnot k (List.mem_cons_of_mem _ hk) hmem

/-- What is read for a name is the one attribute of that name. -/
theorem mem_ofText_iff {t k v : Text} : (k, v) ∈ ofText t ↔ (ofText t).lookup k = some v := by
  rw [List.lookup_eq_some_iff]
  constructor
  · intro h
    obtain ⟨before, after, heq⟩ := List.append_of_mem h
    refine ⟨before, after, heq, fun a ha => ?_⟩
    have hnodup : ((ofText t).map Prod.fst).Nodup := nodup_firstOfEach.1
    rw [heq, List.map_append, List.map_cons, List.nodup_append] at hnodup
    have hne := hnodup.2.2 a.1 (List.mem_map_of_mem ha) k List.mem_cons_self
    exact bne_iff_ne.mpr (Ne.symm hne)
  · rintro ⟨before, after, heq, -⟩
    rw [heq]
    exact List.mem_append_right _ List.mem_cons_self

/-- A value without blanks around it is written as it is read exactly if it has no quotes. -/
theorem trim_escapedAttribute_iff {v : Text} (hv : v.Trimmed) :
    Text.trim (escapedAttribute v) = v ↔ '"' ∉ v := by
  constructor
  · intro h hmem
    obtain ⟨front, back, heq, -⟩ := Text.exists_trim (escapedAttribute v)
    refine not_mem_escapedAttribute v ?_
    rw [heq, h]
    simp [hmem]
  · intro h
    rw [escapedAttribute_eq h, hv.trim_eq]

/-- **A tag that is written anew with its group keeps its attributes but for the name exactly
if it is plain.** -/
theorem agreeButName_iff (t : Text) (name : Option Text) :
    (ofText t).AgreeButName (writtenReference name ((ofText t).value? "group".toList)) ↔
      (ofText t).ArePlain := by
  have hne : ("group".toList : Text) ≠ "name".toList := by decide
  have hgroup : (writtenReference name ((ofText t).value? "group".toList)).lookup
      "group".toList = ((ofText t).value? "group".toList).map fun v =>
        Text.trim (escapedAttribute v) := by
    rw [lookup_writtenReference, if_neg hne, if_pos rfl, value?]
    cases (ofText t).lookup "group".toList with
    | none => rfl
    | some v => cases v <;> rfl
  constructor
  · rintro h ⟨k, v⟩ ha
    have hlookup := mem_ofText_iff.mp ha
    by_cases hk : k = "name".toList
    · exact .inl hk
    · have hagree := h k hk
      rw [hlookup] at hagree
      by_cases hk' : k = "group".toList
      · subst hk'
        rw [hgroup, value?, hlookup, Option.bind_some] at hagree
        obtain ⟨w, hw, heq⟩ := Option.map_eq_some_iff.mp hagree.symm
        obtain rfl := eq_of_nonempty? hw
        have hv : v ≠ [] := by
          rintro rfl
          cases hw
        exact .inr ⟨rfl, hv, (trim_escapedAttribute_iff (trimmed_of_mem ha)).mp heq⟩
      · rw [lookup_writtenReference, if_neg hk, if_neg hk'] at hagree
        cases hagree
  · intro h k hk
    by_cases hk' : k = "group".toList
    · subst hk'
      rw [hgroup, value?]
      cases hlookup : (ofText t).lookup "group".toList with
      | none => rfl
      | some v =>
        have ha := mem_ofText_iff.mpr hlookup
        rcases h _ ha with heq | ⟨-, hv, hquote⟩
        · exact absurd heq hne
        · rw [Option.bind_some, nonempty?_of_ne hv, Option.map_some,
            (trim_escapedAttribute_iff (trimmed_of_mem ha)).mpr hquote]
    · rw [lookup_writtenReference, if_neg hk, if_neg hk']
      cases hlookup : (ofText t).lookup k with
      | none => rfl
      | some v =>
        rcases h _ (mem_ofText_iff.mpr hlookup) with heq | ⟨heq, -⟩
        · exact absurd heq hk
        · exact absurd heq hk'

end Attributes
end CiteMarkup
