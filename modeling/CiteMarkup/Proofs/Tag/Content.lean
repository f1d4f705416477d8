import CiteMarkup.Proofs.Tag.Grammar
/-!
# The form of tags with content

A tag with content is an opening tag with a closing tag somewhere behind it (`BeginsFullTag`), and
the rule for tags with content passes exactly where none begins (`fullTagRule_eq_pass_iff`).  So a
page has none exactly if it holds none as it is seen (`Page.fullTags_eq_nil_iff`).
-/

namespace CiteMarkup

/-! ## 1. Opening and closing -/

/-- A closing tag: its name, blanks and the bracket. -/
def IsClosing (t : Text) : Prop := ∃ name u : Text,
  Spells "</ref".toList name ∧ u.isBlankOnly = true ∧ name ++ (u ++ ['>']) = t

/-- The text begins with a tag with content: an opening tag, and a closing tag somewhere behind
it. -/
def BeginsFullTag (t : Text) : Prop := ∃ name inside body close rest : Text,
  Spells "<ref".toList name ∧ Opening.IsInside inside ∧ IsClosing close ∧
    name ++ (inside ++ '>' :: (body ++ (close ++ rest))) = t

/-- The text holds a tag with content. -/
def HoldsFullTag (t : Text) : Prop := ∃ v, v <:+ t ∧ BeginsFullTag v

variable {t v rest : Text}

theorem refClosing?_iff :
    refClosing? t = some rest ↔ ∃ close, IsClosing close ∧ close ++ rest = t := by
  simp only [refClosing?, Option.bind_eq_bind, Option.bind_eq_some_iff]
  constructor
  · rintro ⟨r, hr, hafter⟩
    obtain ⟨name, hname, rfl⟩ := keyword?_iff.mp hr
    have hblanks : (r.takeWhile isBlank).all isBlank = true :=
      List.all_eq_true.mpr fun c hc => List.mem_takeWhile_imp hc
    refine ⟨_, ⟨name, r.takeWhile isBlank, hname, hblanks, rfl⟩, ?_⟩
    rw [List.append_assoc, List.append_assoc, ← eq_append_of_after? hafter,
      List.takeWhile_append_dropWhile]
  · rintro ⟨_, ⟨name, u, hname, hu, rfl⟩, rfl⟩
    refine ⟨u ++ '>' :: rest, keyword?_iff.mpr ⟨name, hname, by simp⟩, ?_⟩
    rw [List.dropWhile_append_of_pos (List.all_eq_true.mp hu),
      List.dropWhile_cons_of_neg (by decide)]
    exact after?_append ['>'] rest

theorem until?_isSome {stop : Text → Option Text} :
    (until? stop t).isSome = true ↔ ∃ u v, u ++ v = t ∧ (stop v).isSome = true := by
  constructor
  · intro h
    obtain ⟨⟨u, rest⟩, hu⟩ := Option.isSome_iff_exists.mp h
    obtain ⟨v, rfl, hv⟩ := eq_append_of_until? hu
    exact ⟨u, v, rfl, by rw [hv]; rfl⟩
  · rintro ⟨u, v, rfl, hv⟩
    induction u with
    | nil =>
      cases v with
      | nil => simpa [until?] using hv
      | cons c v =>
        obtain ⟨rest, hrest⟩ := Option.isSome_iff_exists.mp hv
        simp [until?, hrest]
    | cons c u ih =>
      rw [List.cons_append, until?]
      split
      · rfl
      · simpa using ih

/-! ## 2. What the rule finds -/

/-- The rule for tags with content finds one exactly where one begins. -/
theorem fullTagRule_eq_pass_iff : fullTagRule t = .pass ↔ ¬BeginsFullTag t := by
  have hopening : ∀ o r, refOpening? t = some (o, r) ∧ o.isEmpty = false ↔ ∃ name inside,
      Spells "<ref".toList name ∧ Opening.IsInside inside ∧ name ++ (inside ++ '>' :: r) = t ∧
        o = ⟨inside.length, false, inside.length + 1⟩ := by
    intro o r
    simp only [refOpening?, Option.bind_eq_bind, Option.bind_eq_some_iff]
    constructor
    · rintro ⟨⟨s, hs, hread⟩, ho⟩
      obtain ⟨name, hname, rfl⟩ := keyword?_iff.mp hs
      obtain ⟨inside, hinside, rfl, rfl⟩ := Opening.read?_iff.mp ⟨hread, ho⟩
      exact ⟨name, inside, hname, hinside, rfl, rfl⟩
    · rintro ⟨name, inside, hname, hinside, rfl, rfl⟩
      obtain ⟨hread, ho⟩ := Opening.read?_iff.mpr ⟨inside, hinside, rfl, rfl⟩
      exact ⟨⟨_, keyword?_iff.mpr ⟨name, hname, rfl⟩, hread⟩, ho⟩
  have hclosing : ∀ r, (until? refClosing? r).isSome = true ↔
      ∃ body close rest, IsClosing close ∧ body ++ (close ++ rest) = r := by
    intro r
    rw [until?_isSome]
    constructor
    · rintro ⟨body, v, rfl, hv⟩
      obtain ⟨rest, hrest⟩ := Option.isSome_iff_exists.mp hv
      obtain ⟨close, hclose, rfl⟩ := refClosing?_iff.mp hrest
      exact ⟨body, close, rest, hclose, rfl⟩
    · rintro ⟨body, close, rest, hclose, rfl⟩
      exact ⟨body, close ++ rest, rfl,
        Option.isSome_iff_exists.mpr ⟨rest, refClosing?_iff.mpr ⟨close, hclose, rfl⟩⟩⟩
  constructor
  · rintro hpass ⟨name, inside, body, close, rest, hname, hinside, hclose, rfl⟩
    obtain ⟨hread, ho⟩ := (hopening _ _).mpr ⟨name, inside, hname, hinside, rfl, rfl⟩
    obtain ⟨⟨u, v⟩, huv⟩ := Option.isSome_iff_exists.mp
      ((hclosing _).mpr ⟨body, close, rest, hclose, rfl⟩)
    simp only [fullTagRule, hread, huv, Bool.false_eq_true, if_false] at hpass
    cases hpass
  · intro hnone
    unfold fullTagRule
    split
    · rename_i o r hread
      split
      · rfl
      · rename_i ho
        split
        · rename_i u v huv
          obtain ⟨name, inside, hname, hinside, rfl, -⟩ :=
            (hopening _ _).mp ⟨hread, by simpa using ho⟩
          obtain ⟨body, close, rest, hclose, rfl⟩ := (hclosing r).mp (by rw [huv]; rfl)
          exact absurd ⟨name, inside, body, close, rest, hname, hinside, hclose, rfl⟩ hnone
        · rfl
    · rfl

theorem fullTagRule_ne_jump (t : Text) (n : Nat) : fullTagRule t ≠ .jump n := by
  unfold fullTagRule
  split
  · split
    · simp
    · split
      · simp
      · simp
  · simp

/-- A rule finds nothing exactly if it passes everywhere. -/
theorem scanFrom_eq_nil_iff {α : Type} {rule : Text → Verdict α}
    (hjump : ∀ t n, rule t ≠ .jump n) (offset : Nat) (before : Option Char) :
    scanFrom (fun _ => rule) offset 0 before t = [] ↔
      ∀ v, v <:+ t → v ≠ [] → rule v = .pass := by
  induction t generalizing offset before with
  | nil => simp [scanFrom]
  | cons c r ih =>
    rw [scanFrom]
    split
    · rename_i hpass
      rw [ih]
      constructor
      · intro h v hv hne
        rcases List.suffix_cons_iff.mp hv with rfl | hv
        · exact hpass
        · exact h v hv hne
      · exact fun h v hv hne => h v (hv.trans (List.suffix_cons c r)) hne
    · rename_i n hn
      exact absurd hn (hjump _ n)
    · rename_i n a hfound
      constructor
      · intro h
        cases h
      · intro h
        rw [h _ (List.suffix_refl _) (by simp)] at hfound
        cases hfound

theorem BeginsFullTag.head? (h : BeginsFullTag t) : t.head? = some '<' := by
  obtain ⟨name, inside, body, close, rest, hname, -, -, rfl⟩ := h
  exact head_of_keyword? (keyword?_iff.mpr ⟨name, hname, rfl⟩)

/-- **A page has no tag with content exactly if it holds none as it is seen.** -/
theorem Page.fullTags_eq_nil_iff (p : Page) : p.fullTags = [] ↔ ¬HoldsFullTag p.seen := by
  rw [Page.fullTags_eq, List.map_eq_nil_iff, scan, scanFrom_eq_nil_iff fullTagRule_ne_jump]
  constructor
  · rintro h ⟨v, hv, htag⟩
    have hne : v ≠ [] := fun hnil => by
      have hhead := htag.head?
      rw [hnil] at hhead
      cases hhead
    exact fullTagRule_eq_pass_iff.mp (h v hv hne) htag
  · exact fun h v hv _ => fullTagRule_eq_pass_iff.mpr fun htag => h ⟨v, hv, htag⟩

/-- In front of a text with a tag with content may stand anything. -/
theorem HoldsFullTag.append_left (h : HoldsFullTag t) (u : Text) : HoldsFullTag (u ++ t) :=
  h.imp fun _ hv => ⟨hv.1.trans (List.suffix_append u t), hv.2⟩

/-- Without a bracket nothing of a tag stands in front. -/
theorem HoldsFullTag.of_append {u : Text} (hu : '<' ∉ u) (h : HoldsFullTag (u ++ t)) :
    HoldsFullTag t := by
  induction u with
  | nil => exact h
  | cons c u ih =>
    obtain ⟨hc, hu⟩ := not_or.mp (List.mem_cons.not.mp hu)
    obtain ⟨v, hv, htag⟩ := h
    rcases List.suffix_cons_iff.mp hv with rfl | hv
    · exact absurd (Option.some.inj htag.head?).symm hc
    · exact ih hu ⟨v, hv, htag⟩

/-- A text with a tag with content has the beginning of a closing tag. -/
theorem HoldsFullTag.infix (h : HoldsFullTag t) : "</".toList <:+: t := by
  obtain ⟨v, hv, name, inside, body, close, rest, -, -, ⟨word, u, hword, -, rfl⟩, rfl⟩ := h
  obtain ⟨w, rfl⟩ : ∃ w, word = "</".toList ++ w := by
    cases hword with
    | @cons _ c _ r hc hr =>
      cases hr with
      | @cons _ d _ w hd _ =>
        have hc : isLetter '<' c = true := hc
        have hd : isLetter '/' d = true := hd
        have hc : c = '<' := eq_of_asciiLower (by simpa [isLetter] using hc) (by decide)
        have hd : d = '/' := eq_of_asciiLower (by simpa [isLetter] using hd) (by decide)
        exact ⟨w, by rw [hc, hd]; rfl⟩
  refine List.IsInfix.trans ⟨name ++ (inside ++ '>' :: body), w ++ (u ++ ['>']) ++ rest, ?_⟩
    hv.isInfix
  simp

end CiteMarkup
