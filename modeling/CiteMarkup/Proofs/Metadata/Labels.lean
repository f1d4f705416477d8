import CiteMarkup.Metadata.Address
import CiteMarkup.Proofs.Text.Value
/-!
# Labels of a host

A host is told by the label in front of its public suffix: its last label, or its last two if they
are a second level and a country code.  Nothing keeps that label from being empty, since two dots
may stand in a row and a dot may come first.  `Address.domainShort?_eq_some_nil` says exactly which
hosts have no label of their own.

Labels are cut at every dot but used from the end, so the one fact that all else rests on is what
the last dot does (`Text.splitAll_append`): the labels in front of it are those of the text in front
of it.
-/

namespace CiteMarkup

variable {u v w : Text} {sep : Char}

/-! ## 1. Pieces -/

namespace Text

theorem splitAll_cons_of_ne {c : Char} (hc : c ≠ sep) (t : Text) :
    ∃ p ps, splitAll sep t = p :: ps ∧ splitAll sep (c :: t) = (c :: p) :: ps := by
  rw [splitAll, if_neg hc]
  cases h : splitAll sep t with
  | nil =>
    cases t with
    | nil => cases h
    | cons d r =>
      rw [splitAll] at h
      split at h
      · cases h
      · split at h <;> cases h
  | cons p ps => exact ⟨p, ps, rfl, rfl⟩

theorem splitAll_of_not_mem (h : sep ∉ u) : splitAll sep u = [u] := by
  induction u with
  | nil => rfl
  | cons c r ih =>
    have hc : c ≠ sep := Ne.symm (List.ne_of_not_mem_cons h)
    obtain ⟨p, ps, hrest, heq⟩ := splitAll_cons_of_ne hc r
    rw [ih (List.not_mem_of_not_mem_cons h)] at hrest
    obtain ⟨rfl, rfl⟩ := List.cons.inj hrest
    exact heq

/-- **A separator cuts a text in two, each with the pieces that it has.** -/
theorem splitAll_append (sep : Char) (u v : Text) :
    splitAll sep (u ++ sep :: v) = splitAll sep u ++ splitAll sep v := by
  induction u with
  | nil => simp [splitAll]
  | cons c u ih =>
    by_cases hc : c = sep
    · rw [List.cons_append, splitAll, if_pos hc, splitAll, if_pos hc, ih, List.cons_append]
    · obtain ⟨p, ps, hp, heq⟩ := splitAll_cons_of_ne hc (u ++ sep :: v)
      obtain ⟨q, qs, hq, heq'⟩ := splitAll_cons_of_ne hc u
      rw [ih, hq, List.cons_append] at hp
      obtain ⟨rfl, rfl⟩ := List.cons.inj hp
      rw [List.cons_append, heq, heq', List.cons_append]

/-- The last piece comes first if the pieces are read from the end. -/
theorem reverse_splitAll (h : sep ∉ v) :
    (splitAll sep (u ++ sep :: v)).reverse = v :: (splitAll sep u).reverse := by
  rw [splitAll_append, splitAll_of_not_mem h, List.reverse_append]
  rfl

/-- A text has a last separator unless it has none. -/
theorem exists_last (sep : Char) (t : Text) :
    sep ∉ t ∨ ∃ u v, t = u ++ sep :: v ∧ sep ∉ v := by
  induction t with
  | nil => exact .inl List.not_mem_nil
  | cons c r ih =>
    rcases ih with hr | ⟨u, v, rfl, hv⟩
    · by_cases hc : c = sep
      · exact .inr ⟨[], r, by rw [hc]; rfl, hr⟩
      · exact .inl (List.not_mem_cons_of_ne_of_not_mem (Ne.symm hc) hr)
    · exact .inr ⟨c :: u, v, rfl, hv⟩

/-- There is but one last separator. -/
theorem eq_of_append_last {u' v' : Text} (hv : sep ∉ v) (hv' : sep ∉ v')
    (h : u ++ sep :: v = u' ++ sep :: v') : u = u' ∧ v = v' := by
  have hpieces : v :: (splitAll sep u).reverse = v' :: (splitAll sep u').reverse := by
    rw [← reverse_splitAll hv, ← reverse_splitAll hv', h]
  obtain rfl : v = v' := (List.cons.inj hpieces).1
  exact ⟨List.append_cancel_right h, rfl⟩

/-- The last piece of a text is empty: the text is empty, or a separator comes last. -/
def EndsOpen (sep : Char) (t : Text) : Prop := t = [] ∨ t.getLast? = some sep

theorem endsOpen_of_not_mem (h : sep ∉ u) : EndsOpen sep u ↔ u = [] := by
  refine or_iff_left fun hlast => h ?_
  exact List.mem_of_getLast? hlast

theorem endsOpen_append (h : sep ∉ v) : EndsOpen sep (u ++ sep :: v) ↔ v = [] := by
  cases v with
  | nil => simp [EndsOpen]
  | cons c r =>
    have hlast : (u ++ sep :: c :: r).getLast? = (c :: r).getLast? := by
      rw [List.getLast?_append_of_ne_nil _ (List.cons_ne_nil _ _), List.getLast?_cons_cons]
    rw [EndsOpen, hlast]
    constructor
    · rintro (hnil | hsep)
      · simp at hnil
      · exact absurd (List.mem_of_getLast? hsep) h
    · intro hnil
      cases hnil

end Text

/-! ## 2. The label that tells -/

namespace Address

open Text

/-- What is cut off from a host: one label, or two if they are a second level and a country code. -/
inductive IsSuffix : Text → Prop where
  | top {t : Text} (hone : '.' ∉ t) : IsSuffix t
  | country {second t : Text} (hsecond : second ∈ secondLevel) (hlen : t.length = 2)
      (hone : '.' ∉ t) : IsSuffix (second ++ '.' :: t)

/-- A host that has a public suffix, but no label in front of it. -/
def LacksLabel (host : Text) : Prop :=
  ∃ front suffix, IsSuffix suffix ∧ host = front ++ '.' :: suffix ∧ EndsOpen '.' front

theorem not_mem_of_secondLevel (h : u ∈ secondLevel) : '.' ∉ u := by
  have hall : ∀ s ∈ secondLevel, '.' ∉ s := by decide
  exact hall u h

theorem ne_nil_of_secondLevel (h : u ∈ secondLevel) : u ≠ [] := by
  have hall : ∀ s ∈ secondLevel, s ≠ [] := by decide
  exact hall u h

theorem not_lacksLabel_of_not_mem (h : '.' ∉ u) : ¬ LacksLabel u := by
  rintro ⟨front, suffix, -, rfl, -⟩
  exact h (by simp)

/-- The suffix is found at the last dot, or at the one in front of it. -/
theorem lacksLabel_append (hv : '.' ∉ v) : LacksLabel (u ++ '.' :: v) ↔
    EndsOpen '.' u ∨
      ∃ front second, u = front ++ '.' :: second ∧ second ∈ secondLevel ∧ v.length = 2 ∧
        EndsOpen '.' front := by
  constructor
  · rintro ⟨front, suffix, hsuffix, heq, hopen⟩
    cases hsuffix with
    | top hone =>
      obtain ⟨rfl, rfl⟩ := eq_of_append_last hv hone heq
      exact .inl hopen
    | @country second t hsecond hlen hone =>
      have heq : u ++ '.' :: v = (front ++ '.' :: second) ++ '.' :: t := by simpa using heq
      obtain ⟨rfl, rfl⟩ := eq_of_append_last hv hone heq
      exact .inr ⟨front, second, rfl, hsecond, hlen, hopen⟩
  · rintro (hopen | ⟨front, second, rfl, hsecond, hlen, hopen⟩)
    · exact ⟨u, v, .top hv, rfl, hopen⟩
    · exact ⟨front, second ++ '.' :: v, .country hsecond hlen hv, by simp, hopen⟩

/-- **The label in front of the suffix is empty exactly if the host lacks one.** -/
theorem ownLabel_eq_nil_iff {host : Text} (hne : host ≠ []) :
    ownLabel (splitAll '.' host).reverse = [] ↔ LacksLabel host := by
  rcases exists_last '.' host with hone | ⟨u, v, rfl, hv⟩
  · -- one label, which is the host
    rw [splitAll_of_not_mem hone, List.reverse_singleton, ownLabel]
    exact iff_of_false hne (not_lacksLabel_of_not_mem hone)
  · rw [reverse_splitAll hv, lacksLabel_append hv]
    rcases exists_last '.' u with hu | ⟨front, second, rfl, hsecond⟩
    · -- two labels, of which the first one tells
      rw [splitAll_of_not_mem hu, List.reverse_singleton, ownLabel, endsOpen_of_not_mem hu]
      refine (or_iff_left ?_).symm
      rintro ⟨front, second, rfl, -⟩
      exact hu (by simp)
    · -- three labels at least
      have hthird : ∃ third rest, (splitAll '.' front).reverse = third :: rest ∧
          (third = [] ↔ EndsOpen '.' front) := by
        rcases exists_last '.' front with hfront | ⟨more, third, rfl, hthird⟩
        · exact ⟨front, [], by rw [splitAll_of_not_mem hfront]; rfl,
            (endsOpen_of_not_mem hfront).symm⟩
        · exact ⟨third, _, reverse_splitAll hthird, (endsOpen_append hthird).symm⟩
      obtain ⟨third, rest, hrest, hopen⟩ := hthird
      rw [reverse_splitAll hsecond, hrest, ownLabel, endsOpen_append hsecond]
      by_cases hcountry : v.length = 2 ∧ second ∈ secondLevel
      · rw [if_pos (by simpa using hcountry), hopen]
        constructor
        · exact fun h => .inr ⟨front, second, rfl, hcountry.2, hcountry.1, h⟩
        · rintro (hnil | ⟨front', second', heq, hmem, -, h⟩)
          · exact absurd hnil (ne_nil_of_secondLevel hcountry.2)
          · obtain ⟨rfl, -⟩ := eq_of_append_last hsecond (not_mem_of_secondLevel hmem) heq
            exact h
      · rw [if_neg (by simpa using hcountry)]
        refine (or_iff_left ?_).symm
        rintro ⟨front', second', heq, hmem, hlen, -⟩
        obtain ⟨-, rfl⟩ := eq_of_append_last hsecond (not_mem_of_secondLevel hmem) heq
        exact hcountry ⟨hlen, hmem⟩

theorem ne_nil_of_domain? {rules : Rules} {t host : Text} (h : domain? rules t = some host) :
    host ≠ [] := by
  simp only [domain?] at h
  split at h
  · exact ne_nil_of_nonempty? h
  · cases h

/-- The label that tells whose a host is, is empty exactly if the host lacks one. -/
theorem domainShort?_eq_some_nil {rules : Rules} {t : Text} : domainShort? rules t = some [] ↔
    ∃ host, domain? rules t = some host ∧ LacksLabel host := by
  rw [domainShort?, Option.map_eq_some_iff]
  refine exists_congr fun host => and_congr_right fun hhost => ?_
  exact ownLabel_eq_nil_iff (ne_nil_of_domain? hhost)

end Address
end CiteMarkup
