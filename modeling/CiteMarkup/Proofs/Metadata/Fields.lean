import CiteMarkup.Metadata.Extract
import CiteMarkup.Proofs.Metadata.Labels
import CiteMarkup.Proofs.Metadata.Years
/-!
# Fields of the metadata

Who reads the metadata of a reference asks only whether a field is there, so a field should not be
there and be empty.  The metadata are built up field by field, and each step is shown to write no
empty text (`HasFilledFields`), with one exception: the label that tells whose the host is can be
empty, and it stays so unless the kind of the citation names the source
(`Metadata.fields_filled`, `Metadata.empty_label_given`).

What goes without saying for a kind of source is written last and only where nothing stands
(`withKind_keeps`).

Complete dates are read by a reader that is given.  All that is asked of it is that what it reads is
not empty.
-/

namespace CiteMarkup

/-! ## 1. Values -/

/-- A value that is not there, or is not empty. -/
def AbsentOrFilled (value : Option Text) : Prop := value ≠ some []

section Values

variable {v : Text} {value other : Option Text}

theorem absentOrFilled_none : AbsentOrFilled none := nofun

theorem absentOrFilled_some (h : v ≠ []) : AbsentOrFilled (some v) :=
  fun heq => h (Option.some.inj heq)

theorem absentOrFilled_nonempty? (t : Text) : AbsentOrFilled t.nonempty? :=
  fun h => ne_nil_of_nonempty? h rfl

/-- A parameter is picked only if its value is not empty. -/
theorem absentOrFilled_pickValue? (params : List Param) (keys : List Text) :
    AbsentOrFilled (pickValue? params keys) := by
  intro h
  obtain ⟨key, -, hfound⟩ := List.exists_of_findSome?_eq_some h
  obtain ⟨p, hp, hempty⟩ := Option.map_eq_some_iff.mp hfound
  have hpick := List.find?_some hp
  rw [hempty] at hpick
  simp at hpick

namespace Metadata

theorem absentOrFilled_clean? (value : Option Text) : AbsentOrFilled (clean? value) := by
  intro h
  obtain ⟨u, -, hu⟩ := Option.bind_eq_some_iff.mp h
  exact absentOrFilled_nonempty? _ hu

theorem absentOrFilled_orElse (h : AbsentOrFilled other) : AbsentOrFilled (orElse value other) := by
  unfold orElse
  split
  · rename_i v hv
    obtain ⟨t, -, ht⟩ := Option.bind_eq_some_iff.mp hv
    exact absentOrFilled_some (ne_nil_of_nonempty? ht)
  · exact h

/-- Another value is taken only for one that is missing or empty. -/
theorem orElse_of_ne (h : v ≠ []) (other : Option Text) : orElse (some v) other = some v := by
  rw [orElse, Option.bind_some, nonempty?_of_ne h]

end Metadata
end Values

/-! ## 2. Dates and years -/

/-- A date with nothing left out in either form. -/
structure WrittenDate.IsFilled (d : WrittenDate) : Prop where
  compact : d.compact ≠ []
  display : d.display ≠ []

section Dates

variable {t year : Text} {d : WrittenDate} {complete : Text → Option WrittenDate}

theorem isFilled_from (h : year ≠ []) (rest : Text) : (WrittenDate.from year rest).IsFilled := by
  unfold WrittenDate.from
  split
  · exact ⟨h, h⟩
  · dsimp only
    split
    · exact ⟨by simp [h], by simp [h]⟩
    · exact ⟨by simp [h], by simp [h]⟩

theorem isFilled_search? (h : WrittenDate.search? t = some d) : d.IsFilled := by
  induction t with
  | nil => cases h
  | cons c r ih =>
    rw [WrittenDate.search?] at h
    split at h
    · rw [← Option.some.inj h]
      exact isFilled_from (List.cons_ne_nil _ _) _
    · exact ih h

theorem isFilled_usual? (h : WrittenDate.usual? t = some d) : d.IsFilled := by
  obtain ⟨day, -, rfl⟩ := Option.map_eq_some_iff.mp h
  have hyear : Text.ofNat day.year ≠ [] := Text.ofNat_ne_nil _
  exact ⟨by simp [Day.write, hyear], by simp [Day.write, hyear]⟩

theorem isFilled_readBy? (hcomplete : ∀ t d, complete t = some d → d.IsFilled)
    (h : WrittenDate.readBy? complete t = some d) : d.IsFilled := by
  unfold WrittenDate.readBy? at h
  split at h
  · rename_i d' hd
    exact Option.some.inj h ▸ hcomplete t d' hd
  · exact isFilled_search? h

/-- A year has four digits in both forms. -/
theorem Year.ne_nil {y : Year} (h : Year.find? t = some y) : y.written ≠ [] ∧ y.ascii ≠ [] := by
  obtain ⟨run, hrun, rfl⟩ := Option.map_eq_some_iff.mp h
  have hlen : run.length = 4 := length_of_yearFrom? hrun
  have hne : run ≠ [] := List.ne_nil_of_length_eq_add_one hlen
  exact ⟨hne, by simpa [Text.asciiDigits] using hne⟩

theorem Year.absentOrFilled_converted? {y : Year} (h : Year.find? t = some y) :
    AbsentOrFilled y.converted? := by
  unfold Year.converted?
  split
  · exact absentOrFilled_none
  · exact absentOrFilled_some (Year.ne_nil h).2

end Dates

namespace Metadata

/-! ## 3. Fields -/

/-- A field of the metadata, by its name. -/
inductive Field where
  | last | first | author | title | work | publisher | domain | domainShort | phrase
  | year | yearAscii | textYear | textYearAscii | dateCompact | dateDisplay

/-- What stands in a field. -/
def get (m : Metadata) : Field → Option Text
  | .last => m.last
  | .first => m.first
  | .author => m.author
  | .title => m.title
  | .work => m.work
  | .publisher => m.publisher
  | .domain => m.domain
  | .domainShort => m.domainShort
  | .phrase => m.phrase
  | .year => m.year
  | .yearAscii => m.yearAscii
  | .textYear => m.textYear
  | .textYearAscii => m.textYearAscii
  | .dateCompact => m.dateCompact
  | .dateDisplay => m.dateDisplay

/-- Every field is absent or filled, but perhaps the label of the host. -/
def HasFilledFields (m : Metadata) : Prop := ∀ f, f ≠ .domainShort → AbsentOrFilled (m.get f)

variable {rules : Address.Rules} {m : Metadata} {f : Field} {v : Text} {kind user : Option Text}
  {complete : Text → Option WrittenDate} {citation : Option Template}

/-! ## 4. What a body says -/

theorem absentOrFilled_given? (keys : List String) : AbsentOrFilled (given? citation keys) :=
  absentOrFilled_pickValue? _ _

theorem absentOrFilled_domain? (a : Text) : AbsentOrFilled (Address.domain? rules a) :=
  fun h => Address.ne_nil_of_domain? h rfl

theorem hasFilledFields_ofParams : (ofParams (given? citation)).HasFilledFields := by
  unfold ofParams
  intro f _
  cases f <;> dsimp only [get]
  case last | first | author => exact absentOrFilled_given? _
  case title | work | publisher => exact absentOrFilled_clean? _
  all_goals exact absentOrFilled_none

namespace HasFilledFields

theorem withAddress (h : m.HasFilledFields) (rules : Address.Rules) (address : Option Text) :
    (m.withAddress rules address).HasFilledFields := by
  unfold Metadata.withAddress
  split
  · exact h
  · intro f hf
    cases f <;> dsimp only [get]
    case domain => exact absentOrFilled_domain? _
    case domainShort => exact absurd rfl hf
    all_goals exact (h _ hf :)

theorem withDate (hcomplete : ∀ t d, complete t = some d → d.IsFilled) (h : m.HasFilledFields)
    (date : Option Text) : (m.withDate complete date).HasFilledFields := by
  unfold Metadata.withDate
  split
  · exact h
  · split
    · exact h
    · rename_i d hd
      have hfilled : d.IsFilled := isFilled_readBy? hcomplete hd
      intro f hf
      cases f <;> dsimp only [get]
      case dateCompact => exact absentOrFilled_some hfilled.compact
      case dateDisplay => exact absentOrFilled_some hfilled.display
      all_goals exact (h _ hf :)

theorem withYear (h : m.HasFilledFields) (given : Option Text) (body : Text) :
    (m.withYear given body).HasFilledFields := by
  unfold Metadata.withYear
  split
  · rename_i y hy
    intro f hf
    cases f <;> dsimp only [get]
    case year => exact absentOrFilled_some (Year.ne_nil hy).1
    case yearAscii => exact Year.absentOrFilled_converted? hy
    all_goals exact (h _ hf :)
  · split
    · rename_i y hy
      intro f hf
      cases f <;> dsimp only [get]
      case textYear => exact absentOrFilled_some (Year.ne_nil hy).1
      case textYearAscii => exact Year.absentOrFilled_converted? hy
      all_goals exact (h _ hf :)
    · exact h

theorem withFirstAuthor (h : m.HasFilledFields) : m.withFirstAuthor.HasFilledFields := by
  unfold Metadata.withFirstAuthor
  split
  · intro f hf
    cases f <;> dsimp only [get]
    case last => exact absentOrFilled_nonempty? _
    all_goals exact (h _ hf :)
  · exact h

theorem withPhrase (h : m.HasFilledFields) (body : Text) :
    (m.withPhrase body).HasFilledFields := by
  unfold Metadata.withPhrase
  intro f hf
  cases f <;> dsimp only [get]
  case phrase => exact absentOrFilled_nonempty? _
  all_goals exact (h _ hf :)

end HasFilledFields

theorem hasFilledFields_gathered (hcomplete : ∀ t d, complete t = some d → d.IsFilled)
    (body : Text) : (gathered rules complete citation body).HasFilledFields := by
  have hparams : (ofParams (given? citation)).HasFilledFields := hasFilledFields_ofParams
  have haddress := hparams.withAddress rules (addressOf? citation body)
  have hdated := haddress.withDate hcomplete (given? citation ["date"])
  exact (hdated.withYear (given? citation ["year", "date"]) body).withFirstAuthor.withPhrase body

/-! The label of the host comes from the address alone. -/

@[simp] theorem domainShort_withDate (date : Option Text) :
    (m.withDate complete date).domainShort = m.domainShort := by
  unfold withDate
  split
  · rfl
  · split <;> rfl

@[simp] theorem domainShort_withYear (given : Option Text) (body : Text) :
    (m.withYear given body).domainShort = m.domainShort := by
  unfold withYear
  split
  · rfl
  · split <;> rfl

@[simp] theorem domainShort_withFirstAuthor : m.withFirstAuthor.domainShort = m.domainShort := by
  unfold withFirstAuthor
  split <;> rfl

@[simp] theorem domainShort_withPhrase (body : Text) :
    (m.withPhrase body).domainShort = m.domainShort := by
  rw [withPhrase]

theorem domainShort_gathered (body : Text) :
    (gathered rules complete citation body).domainShort =
      (addressOf? citation body).bind (Address.domainShort? rules) := by
  simp only [gathered, domainShort_withPhrase, domainShort_withFirstAuthor, domainShort_withYear,
    domainShort_withDate]
  unfold withAddress
  split
  · rename_i hnone
    rw [hnone, ofParams, Option.bind_none]
  · rename_i a ha
    rw [ha, Option.bind_some]

/-! ## 5. What goes without saying -/

/-- The kind of the citation tells what the source is. -/
def NamesSource (kind : Option Text) : Prop :=
  kind = some "cite tweet".toList ∨ kind = some "cite arxiv".toList

/-- Where something stands in `m`, the same stands in `m'`. -/
def Keeps (m m' : Metadata) : Prop := ∀ f v, v ≠ [] → m.get f = some v → m'.get f = some v

theorem withSource_keeps (name label host : String) : Keeps m (m.withSource name label host) := by
  intro f v hv h
  cases f <;> dsimp only [get, withSource] at h ⊢
  case work | publisher | domain | domainShort => rw [h, orElse_of_ne hv]
  all_goals exact h

/-- The metadata of a message with the name of its user. -/
theorem withUser_keeps (user : Text) : Keeps m
    { m with author := orElse m.author (some user), last := orElse m.last (some user) } := by
  intro f v hv h
  cases f <;> dsimp only [get] at h ⊢
  case author | last => rw [h, orElse_of_ne hv]
  all_goals exact h

/-- **The kind of the citation changes nothing that the body says.** -/
theorem withKind_keeps (m : Metadata) (kind user : Option Text) :
    Keeps m (m.withKind kind user) := by
  unfold withKind
  split
  · dsimp only
    split
    · intro f v hv h
      exact withSource_keeps _ _ _ f v hv (withUser_keeps _ f v hv h)
    · exact withSource_keeps _ _ _
  · split
    · exact withSource_keeps _ _ _
    · exact fun f v _ h => h

namespace HasFilledFields

theorem withSource (h : m.HasFilledFields) {name label host : String} (hname : name.toList ≠ [])
    (hhost : host.toList ≠ []) : (m.withSource name label host).HasFilledFields := by
  intro f hf
  cases f <;> dsimp only [get, Metadata.withSource]
  case work | publisher => exact absentOrFilled_orElse (absentOrFilled_some hname)
  case domain => exact absentOrFilled_orElse (absentOrFilled_some hhost)
  case domainShort => exact absurd rfl hf
  all_goals exact (h _ hf :)

theorem withKind (h : m.HasFilledFields) (kind user : Option Text) :
    (m.withKind kind user).HasFilledFields := by
  unfold Metadata.withKind
  split
  · dsimp only
    refine withSource ?_ (by decide) (by decide)
    split
    · rename_i u hu
      have huser : AbsentOrFilled (some u) := hu ▸ absentOrFilled_clean? user
      intro f hf
      cases f <;> dsimp only [get]
      case author | last => exact absentOrFilled_orElse huser
      all_goals exact (h _ hf :)
    · exact h
  · split
    · exact h.withSource (by decide) (by decide)
    · exact h

end HasFilledFields

/-- A kind that names the source leaves no empty label, and no other kind writes one. -/
theorem domainShort_withKind : (m.withKind kind user).domainShort = some [] ↔
    ¬ NamesSource kind ∧ m.domainShort = some [] := by
  have hsource : ∀ (m : Metadata) (name label host : String), label.toList ≠ [] →
      (m.withSource name label host).domainShort ≠ some [] := by
    intro m name label host hlabel
    exact absentOrFilled_orElse (absentOrFilled_some hlabel)
  unfold withKind
  split
  · rename_i htweet
    refine iff_of_false (hsource _ _ _ _ (by decide)) fun h => h.1 (.inl htweet)
  · rename_i htweet
    split
    · rename_i harxiv
      exact iff_of_false (hsource _ _ _ _ (by decide)) fun h => h.1 (.inr harxiv)
    · rename_i harxiv
      exact (and_iff_right (not_or.mpr ⟨htweet, harxiv⟩)).symm

/-! ## 6. Every field -/

/-- **A field is absent or filled, unless the host has no label of its own.**  The one empty text
that a field can hold is the label of a host in which nothing stands in front of the public suffix,
and only if the kind of the citation does not name the source; the rules by which addresses are
read make no difference.  What the body says stays in its field, whatever the kind of the citation
adds. -/
theorem fields_filled (rules : Address.Rules) (complete : Text → Option WrittenDate)
    (hcomplete : ∀ t d, complete t = some d → d.IsFilled) (body : Text) :
    (∀ f, (readBy rules complete body).get f = some [] ↔
        f = .domainShort ∧ ¬ NamesSource ((citationOf? body).map (·.canonical)) ∧
          ∃ a host, addressOf? (citationOf? body) body = some a ∧
            Address.domain? rules a = some host ∧ Address.LacksLabel host) ∧
      (∀ a, Address.domainShort? rules a = some [] ↔
        ∃ host, Address.domain? rules a = some host ∧ Address.LacksLabel host) ∧
      Keeps (gathered rules complete (citationOf? body) body) (readBy rules complete body) := by
  have hfilled : (readBy rules complete body).HasFilledFields :=
    (hasFilledFields_gathered hcomplete body).withKind _ _
  have hlabel : (readBy rules complete body).domainShort = some [] ↔
      ¬ NamesSource ((citationOf? body).map (·.canonical)) ∧
        ∃ a host, addressOf? (citationOf? body) body = some a ∧
          Address.domain? rules a = some host ∧ Address.LacksLabel host := by
    rw [readBy, domainShort_withKind, domainShort_gathered, Option.bind_eq_some_iff]
    simp only [Address.domainShort?_eq_some_nil, exists_and_left]
  refine ⟨fun f => ?_, fun a => Address.domainShort?_eq_some_nil, withKind_keeps _ _ _⟩
  constructor
  · intro h
    have hf : f = .domainShort := by
      by_contra hne
      exact hfilled f hne h
    subst hf
    exact ⟨rfl, hlabel.mp h⟩
  · rintro ⟨rfl, h⟩
    exact hlabel.mpr h

/-- A citation with a date in words, and a host with nothing between its two dots. -/
theorem fields_filled_but_one :
    let body : Text := "{{cite web|url=http://a..b|date=21 March 2006}}".toList
    (∀ t d, WrittenDate.usual? t = some d → d.IsFilled) ∧
      (∀ f, (readBy {} WrittenDate.usual? body).get f = some [] ↔ f = .domainShort) ∧
      (readBy {} WrittenDate.usual? body).dateDisplay = some "2006-03-21".toList := by
  intro body
  have husual : ∀ t d, WrittenDate.usual? t = some d → d.IsFilled := fun _ _ h => isFilled_usual? h
  obtain ⟨hempty, -, hkeeps⟩ := fields_filled {} WrittenDate.usual? husual body
  have hkind : ¬ NamesSource ((citationOf? body).map (·.canonical)) := by
    unfold NamesSource
    decide +kernel
  have haddress : addressOf? (citationOf? body) body = some "http://a..b".toList := by
    decide +kernel
  have hdomain : Address.domain? {} "http://a..b".toList = some "a..b".toList := by decide +kernel
  have hlacks : Address.LacksLabel "a..b".toList :=
    ⟨"a.".toList, "b".toList, .top (by decide), rfl, .inr rfl⟩
  refine ⟨husual, fun f => ?_, ?_⟩
  · rw [hempty]
    exact and_iff_left ⟨hkind, _, _, haddress, hdomain, hlacks⟩
  · exact hkeeps .dateDisplay _ (by decide) (by decide +kernel)

/-- **A field is there and empty.**  The address is read, but the label in front of the last one is
empty. -/
theorem empty_label_given :
    let body : Text := "http://a..b".toList
    Address.domainShort? {} body = some [] ∧ ¬ ∀ f, AbsentOrFilled ((ofBody {} body).get f) := by
  intro body
  refine ⟨by decide +kernel, fun h => h .domainShort ?_⟩
  decide +kernel

end Metadata
end CiteMarkup
