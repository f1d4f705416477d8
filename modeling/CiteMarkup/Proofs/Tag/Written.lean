import CiteMarkup.Proofs.Tag.Attributes
import CiteMarkup.Proofs.Template.Segments
import CiteMarkup.Tag.Writing
import Mathlib.Data.List.TakeWhile
/-!
# Written tags

A tag that is written out is read back with its attributes and its body, if its values can stand
between quotes (`IsAttribute`) and its body ends where the tag is closed (`IsBody`).  It is then
read by itself, and the only mark in it (`selfContained_tagAround`, `selfContained_emptyTag`).
-/

namespace CiteMarkup

/-! ## 1. Written attributes -/

/-- A value that an attribute can be written with: it is read as it is. -/
structure IsAttribute (v : Text) : Prop where
  nonempty : v ≠ []
  trimmed : v.Trimmed
  unquoted : '"' ∉ v
  untagged : '<' ∉ v
  unopened : hasPair '{' v = false

instance (v : Text) : Decidable (IsAttribute v) :=
  decidable_of_iff (v ≠ [] ∧ v.Trimmed ∧ '"' ∉ v ∧ '<' ∉ v ∧ hasPair '{' v = false)
    ⟨fun ⟨h1, h2, h3, h4, h5⟩ => ⟨h1, h2, h3, h4, h5⟩, fun ⟨h1, h2, h3, h4, h5⟩ =>
      ⟨h1, h2, h3, h4, h5⟩⟩

/-- The attributes that references have. -/
def attributeKeys : List Text := ["name".toList, "group".toList]

/-- An attribute as it is written. -/
def writtenAttribute (a : Text × Text) : Text := a.1 ++ '=' :: '"' :: (a.2 ++ ['"'])

/-- Attributes as they are written in a tag. -/
def writtenAttributes (attributes : Attributes) : Text :=
  attributes.flatMap fun a => ' ' :: writtenAttribute a

/-- Attributes of a reference that are read as they are. -/
structure AreAttributes (attributes : Attributes) : Prop where
  keys : ∀ a ∈ attributes, a.1 ∈ attributeKeys
  values : ∀ a ∈ attributes, IsAttribute a.2
  nodup : (attributes.map Prod.fst).Nodup

theorem AreAttributes.tail {a : Text × Text} {l : Attributes} (h : AreAttributes (a :: l)) :
    AreAttributes l :=
  ⟨fun b hb => h.keys b (List.mem_cons_of_mem _ hb),
    fun b hb => h.values b (List.mem_cons_of_mem _ hb), (List.nodup_cons.mp h.nodup).2⟩

/-- Attributes of a reference whose values end at their quotes. -/
structure AreQuoted (attributes : Attributes) : Prop where
  keys : ∀ a ∈ attributes, a.1 ∈ attributeKeys
  unquoted : ∀ a ∈ attributes, '"' ∉ a.2
  nodup : (attributes.map Prod.fst).Nodup

theorem AreQuoted.tail {a : Text × Text} {l : Attributes} (h : AreQuoted (a :: l)) :
    AreQuoted l :=
  ⟨fun b hb => h.keys b (List.mem_cons_of_mem _ hb),
    fun b hb => h.unquoted b (List.mem_cons_of_mem _ hb), (List.nodup_cons.mp h.nodup).2⟩

theorem AreAttributes.quoted {l : Attributes} (h : AreAttributes l) : AreQuoted l :=
  ⟨h.keys, fun a ha => (h.values a ha).unquoted, h.nodup⟩

/-- What the readers of tags ask of a key. -/
theorem key_cases {k : Text} (hk : k ∈ attributeKeys) :
    IsKey k ∧ ∃ c r, k = c :: r ∧ isWordChar c = true ∧ k.all Opening.isNameChar = true ∧
      k.all Attributes.isNameChar = true ∧ k.lower = k := by
  simp only [attributeKeys, List.mem_cons, List.not_mem_nil, or_false] at hk
  rcases hk with rfl | rfl
  · exact ⟨⟨by decide, List.all_eq_true.mp (by decide)⟩, _, _, rfl, by decide, by decide,
      by decide, by decide⟩
  · exact ⟨⟨by decide, List.all_eq_true.mp (by decide)⟩, _, _, rfl, by decide, by decide,
      by decide, by decide⟩

theorem not_mem_of_isKey {k : Text} {d : Char} (hk : IsKey k)
    (hd : (isAsciiLetter d || isAsciiDigit d) = false) : d ∉ k :=
  fun hmem => ne_of_isKey hk hmem hd rfl

section Plain

variable {attributes : Attributes}

theorem not_mem_writtenAttributes (h : AreAttributes attributes) :
    '<' ∉ writtenAttributes attributes := by
  intro hmem
  obtain ⟨a, ha, hc⟩ := List.mem_flatMap.mp hmem
  have hkey : '<' ∉ a.1 := not_mem_of_isKey (key_cases (h.keys a ha)).1 (by decide)
  have hvalue := (h.values a ha).untagged
  simp [writtenAttribute, hkey, hvalue] at hc

theorem hasPair_writtenAttributes (h : AreAttributes attributes) {r : Text}
    (hr : hasPair '{' r = false) : hasPair '{' (writtenAttributes attributes ++ r) = false := by
  have hskip : ∀ (c : Char) (u : Text), c ≠ '{' → hasPair '{' (c :: u) = hasPair '{' u :=
    fun c u hc => by
      have hcons := hasPair_append_cons (u := []) (v := u) hc
      simpa [hasPair] using hcons
  induction attributes with
  | nil => exact hr
  | cons a l ih =>
    have hkey : hasPair '{' a.1 = false := hasPair_eq_false_of_not_mem
      (not_mem_of_isKey (key_cases (h.keys a List.mem_cons_self)).1 (by decide))
    have hvalue := (h.values a List.mem_cons_self).unopened
    have hshape : writtenAttributes (a :: l) ++ r =
        ' ' :: (a.1 ++ '=' :: '"' :: (a.2 ++ '"' :: (writtenAttributes l ++ r))) := by
      simp [writtenAttributes, writtenAttribute]
    rw [hshape, hskip _ _ (by decide), hasPair_append_cons (by decide), hkey,
      hskip _ _ (by decide), hasPair_append_cons (by decide), hvalue, ih h.tail]
    rfl

end Plain

/-! ## 2. The machine for opening tags -/

section Machine

variable {offset : Nat} {s s' : Opening.State} {c : Char} {r : Text}

theorem readFrom?_cons (hend : c = '>' → Opening.finish? offset s = none)
    (hnext : Opening.next? offset c s = some s') :
    Opening.readFrom? offset s (c :: r) = Opening.readFrom? (offset + 1) s' r := by
  have hnone : (if c = '>' then Opening.finish? offset s else none) = none := by
    split
    · exact hend ‹_›
    · rfl
  rw [Opening.readFrom?, hnone]
  simp only [hnext]

/-- Characters that leave the machine in a state are passed over. -/
theorem readFrom?_stay {u : Text} {keep : Char → Bool} (hu : u.all keep = true)
    (hkeep : ∀ c, keep c = true → ∀ n, (c = '>' → Opening.finish? n s = none) ∧
      Opening.next? n c s = some s) (r : Text) :
    Opening.readFrom? offset s (u ++ r) = Opening.readFrom? (offset + u.length) s r := by
  induction u generalizing offset with
  | nil => rfl
  | cons c u ih =>
    rw [List.all_cons, Bool.and_eq_true] at hu
    obtain ⟨hend, hnext⟩ := hkeep c hu.1 offset
    rw [List.cons_append, readFrom?_cons hend hnext, ih hu.2, List.length_cons]
    congr 1
    omega

theorem readFrom?_key {k : Text} (hk : k.all Opening.isNameChar = true) (r : Text) :
    Opening.readFrom? offset .name (k ++ r) = Opening.readFrom? (offset + k.length) .name r := by
  refine readFrom?_stay hk (fun c hc n => ⟨fun _ => rfl, ?_⟩) r
  exact if_pos hc

theorem readFrom?_quoted {q : Char} {v : Text} (hv : q ∉ v) (r : Text) :
    Opening.readFrom? offset (.quoted q) (v ++ q :: r) =
      Opening.readFrom? (offset + (v.length + 1)) (.between false) r := by
  have hother : v.all (· ≠ q) = true := List.all_eq_true.mpr fun c hc =>
    decide_eq_true fun heq => hv (heq ▸ hc)
  have hkeep : ∀ c, decide (c ≠ q) = true → ∀ n, (c = '>' → Opening.finish? n (.quoted q) = none) ∧
      Opening.next? n c (.quoted q) = some (.quoted q) := fun c hc _ =>
    ⟨fun _ => rfl, congrArg some (if_neg (of_decide_eq_true hc))⟩
  have hclose : Opening.next? (offset + v.length) q (.quoted q) = some (.between false) :=
    congrArg some (if_pos rfl)
  rw [readFrom?_stay hother hkeep, readFrom?_cons (fun _ => rfl) hclose]
  rfl

/-- Written attributes lead the machine from one place between attributes to the next. -/
theorem readFrom?_written {l : Attributes} (h : AreQuoted l) (r : Text) :
    Opening.readFrom? offset (.between false) (writtenAttributes l ++ r) =
      Opening.readFrom? (offset + (writtenAttributes l).length) (.between false) r := by
  induction l generalizing offset with
  | nil => rfl
  | cons a l ih =>
    obtain ⟨hkey, c, k, hk, -, hname, -, -⟩ := key_cases (h.keys a List.mem_cons_self)
    have hc : c ∈ a.1 := hk ▸ List.mem_cons_self
    have hvalue := h.unquoted a List.mem_cons_self
    have hshape : writtenAttributes (a :: l) ++ r =
        ' ' :: c :: (k ++ '=' :: '"' :: (a.2 ++ '"' :: (writtenAttributes l ++ r))) := by
      simp [writtenAttributes, writtenAttribute, hk]
    rw [hk, List.all_cons, Bool.and_eq_true] at hname
    have hgap : Opening.next? offset ' ' (.between false) = some (.between true) := by
      rw [Opening.next?, if_pos (by decide)]
    have hbegin : Opening.next? (offset + 1) c (.between true) = some .name := by
      have hslash : c ≠ '/' := ne_of_isKey hkey hc (by decide)
      rw [Opening.next?, if_neg (by simp [isBlank_of_isKey hkey hc]), if_neg hslash,
        if_pos (by simp [hname.1])]
    have hassign : Opening.next? (offset + 1 + 1 + k.length) '=' .name = some .equals := rfl
    have hquote : ∀ n, Opening.next? n '"' .equals = some (.quoted '"') := fun n => by
      rw [Opening.next?, if_neg (by decide), if_pos (by decide)]
    have hbracket : c ≠ '>' := ne_of_isKey hkey hc (by decide)
    rw [hshape, readFrom?_cons (fun hend => absurd hend (by decide)) hgap,
      readFrom?_cons (fun hend => absurd hend hbracket) hbegin, readFrom?_key hname.2,
      readFrom?_cons (fun _ => rfl) hassign, readFrom?_cons (fun _ => rfl) (hquote _),
      readFrom?_quoted hvalue, ih h.tail]
    congr 1
    simp only [writtenAttributes, writtenAttribute, hk, List.flatMap_cons, List.length_append,
      List.length_cons, List.length_nil]
    omega

/-- A written opening tag is read up to its bracket. -/
theorem refOpening?_written {l : Attributes} (h : AreQuoted l) (r : Text) :
    refOpening? ("<ref".toList ++ (writtenAttributes l ++ '>' :: r)) =
      some (⟨(writtenAttributes l).length, false, (writtenAttributes l).length + 1⟩, r) := by
  have hread : Opening.read? (writtenAttributes l ++ '>' :: r) =
      some (⟨(writtenAttributes l).length, false, (writtenAttributes l).length + 1⟩, r) := by
    rw [Opening.read?, readFrom?_written h, Nat.zero_add]
    rfl
  exact hread

/-- A written tag without content is read up to its bracket. -/
theorem refOpening?_empty {l : Attributes} (h : AreQuoted l) (r : Text) :
    refOpening? ("<ref".toList ++ (writtenAttributes l ++ (" />".toList ++ r))) =
      some (⟨(writtenAttributes l).length + 1, true, (writtenAttributes l).length + 3⟩, r) := by
  have hread : Opening.read? (writtenAttributes l ++ (" />".toList ++ r)) =
      some (⟨(writtenAttributes l).length + 1, true, (writtenAttributes l).length + 3⟩, r) := by
    rw [Opening.read?, readFrom?_written h, Nat.zero_add]
    rfl
  exact hread

end Machine

/-! ## 3. Attributes that are read back -/

section Reading

variable {α : Type} {rule : Option Char → Text → Verdict α}

/-- What is covered is passed over; the character before what is left is the last one of it. -/
theorem scanFrom_over (offset : Nat) (b : Option Char) (u t : Text) :
    scanFrom rule offset u.length b (u ++ t) =
      scanFrom rule (offset + u.length) 0 (u.getLast?.or b) t := by
  induction u generalizing offset b with
  | nil => rfl
  | cons c u ih =>
    have hlast : u.getLast?.or (some c) = (c :: u).getLast?.or b := by
      rw [List.getLast?_cons]
      cases u.getLast? <;> rfl
    rw [List.length_cons, List.cons_append, scanFrom, ih, hlast]
    congr 1
    omega

theorem scanFrom_found {offset : Nat} {b : Option Char} {u t : Text} {a : α} (hu : u ≠ [])
    (h : rule b (u ++ t) = .found u.length a) :
    scanFrom rule offset 0 b (u ++ t) = ⟨Span.ofLength offset u.length, a⟩ ::
      scanFrom rule (offset + u.length) 0 u.getLast? t := by
  obtain ⟨c, r, rfl⟩ := List.exists_cons_of_ne_nil hu
  have hlast : r.getLast?.or (some c) = (c :: r).getLast? := by
    rw [List.getLast?_cons]
    cases r.getLast? <;> rfl
  have hrest : scanFrom rule (offset + 1) r.length (some c) (r ++ t) = _ :=
    scanFrom_over _ _ _ _
  rw [hlast, Nat.add_assoc, Nat.add_comm 1] at hrest
  rw [List.cons_append] at h ⊢
  rw [scanFrom, h]
  simpa using hrest

end Reading

namespace Attributes

theorem splitFirst?_append {q : Char} {v : Text} (hv : q ∉ v) (r : Text) :
    Text.splitFirst? q (v ++ q :: r) = some (v, r) := by
  induction v with
  | nil => simp [Text.splitFirst?]
  | cons c v ih =>
    obtain ⟨hc, hv⟩ := not_or.mp (List.mem_cons.not.mp hv)
    simp [Text.splitFirst?, Ne.symm hc, ih hv]

theorem rule_cons {before : Option Char} {c : Char}
    (h : (isNameChar c && isBoundary before c) = true) (r : Text) :
    rule before (c :: r) = .found ((c :: r).length -
        ((assigned ((c :: r).dropWhile isNameChar)).2.dropWhile isBlank).length)
      (Text.lower ((c :: r).takeWhile isNameChar),
        Text.trim (assigned ((c :: r).dropWhile isNameChar)).1) := by
  rw [rule, if_pos h]

/-- Attributes without the blanks around their values. -/
def trimmed (l : Attributes) : Attributes := l.map fun a => (a.1, Text.trim a.2)

/-- The rule finds an attribute that is written, with the blanks behind it. -/
theorem rule_written {before : Option Char} (hbefore : before.any isWordChar = false)
    {a : Text × Text} (hkey : a.1 ∈ attributeKeys) (hvalue : '"' ∉ a.2) (gap : Text)
    (hgap : gap.all isBlank = true) {r : Text} (hr : ∀ c ∈ r.head?, isBlank c = false) :
    rule before (writtenAttribute a ++ gap ++ r) =
      .found (writtenAttribute a ++ gap).length (a.1, Text.trim a.2) := by
  obtain ⟨hk, c, k, heq, hword, -, hname, hlower⟩ := key_cases hkey
  have hnames : ∀ x ∈ a.1, isNameChar x = true := List.all_eq_true.mp hname
  have hshape : writtenAttribute a ++ gap ++ r =
      a.1 ++ '=' :: '"' :: (a.2 ++ '"' :: (gap ++ r)) := by
    simp [writtenAttribute]
  have htake : (a.1 ++ '=' :: '"' :: (a.2 ++ '"' :: (gap ++ r))).takeWhile isNameChar = a.1 := by
    rw [List.takeWhile_append_of_pos hnames, List.takeWhile_cons_of_neg (by decide),
      List.append_nil]
  have hdrop : (a.1 ++ '=' :: '"' :: (a.2 ++ '"' :: (gap ++ r))).dropWhile isNameChar =
      '=' :: '"' :: (a.2 ++ '"' :: (gap ++ r)) := by
    rw [List.dropWhile_append_of_pos hnames, List.dropWhile_cons_of_neg (by decide)]
  have hassigned : assigned ('=' :: '"' :: (a.2 ++ '"' :: (gap ++ r))) = (a.2, gap ++ r) := by
    have hvalue' : value ('"' :: (a.2 ++ '"' :: (gap ++ r))) = (a.2, gap ++ r) := by
      simp [value, quoted?, splitFirst?_append hvalue]
    have hblank : isBlank '=' = false ∧ isBlank '"' = false := by decide
    simp only [assigned, List.dropWhile_cons, hblank.1, hblank.2, Bool.false_eq_true, if_false,
      hvalue']
  have hrest : (gap ++ r).dropWhile isBlank = r := by
    rw [List.dropWhile_append_of_pos (List.all_eq_true.mp hgap)]
    exact Text.trimStart_eq_self hr
  have hfound : rule before (a.1 ++ '=' :: '"' :: (a.2 ++ '"' :: (gap ++ r))) =
      .found ((a.1 ++ '=' :: '"' :: (a.2 ++ '"' :: (gap ++ r))).length - r.length)
        (a.1.lower, a.2.trim) := by
    have hhead : (isNameChar c && isBoundary before c) = true := by
      rw [hnames c (heq ▸ List.mem_cons_self), isBoundary, hbefore, hword]
      rfl
    have hrule := rule_cons hhead (k ++ '=' :: '"' :: (a.2 ++ '"' :: (gap ++ r)))
    rw [← List.cons_append, ← heq] at hrule
    rw [hrule, htake, hdrop, hassigned, hrest]
  rw [hshape, hfound, hlower]
  congr 1
  simp only [writtenAttribute, List.length_append, List.length_cons, List.length_nil]
  omega

/-- Attributes that are written one behind the other are found as they are, the first one
without the blank before it. -/
theorem scanFrom_written {l : Attributes} (gap : Text) (hgap : gap.all isBlank = true)
    {a : Text × Text} (h : AreQuoted (a :: l)) (offset : Nat) {before : Option Char}
    (hbefore : before.any isWordChar = false) :
    (scanFrom rule offset 0 before (writtenAttribute a ++ (writtenAttributes l ++ gap))).map
      (·.value) = trimmed (a :: l) := by
  induction l generalizing a offset before with
  | nil =>
    have hrule := rule_written hbefore (h.keys a List.mem_cons_self)
      (h.unquoted a List.mem_cons_self) gap hgap (r := []) (by simp)
    have hne : writtenAttribute a ++ gap ≠ [] := by simp [writtenAttribute]
    have hfound : scanFrom rule offset 0 before _ = _ := scanFrom_found hne hrule
    rw [List.append_nil] at hfound
    have hnil : writtenAttributes [] ++ gap = gap := rfl
    rw [hnil, hfound]
    rfl
  | cons b l ih =>
    have hshape : writtenAttribute a ++ (writtenAttributes (b :: l) ++ gap) =
        writtenAttribute a ++ [' '] ++ (writtenAttribute b ++ (writtenAttributes l ++ gap)) := by
      simp [writtenAttributes]
    have hhead : ∀ c ∈ (writtenAttribute b ++ (writtenAttributes l ++ gap)).head?,
        isBlank c = false := by
      obtain ⟨hk, c, k, heq, -⟩ := key_cases (h.keys b (by simp))
      intro d hd
      rw [writtenAttribute, heq] at hd
      obtain rfl : c = d := by simpa using hd
      exact isBlank_of_isKey hk (heq ▸ List.mem_cons_self)
    have hrule := rule_written hbefore (h.keys a List.mem_cons_self)
      (h.unquoted a List.mem_cons_self) [' '] (by decide) hhead
    have hne : writtenAttribute a ++ [' '] ≠ [] := by simp
    have hlast : (writtenAttribute a ++ [' ']).getLast?.any isWordChar = false := by
      rw [List.getLast?_append_of_ne_nil _ (by simp)]
      decide
    rw [hshape, scanFrom_found hne hrule, List.map_cons, ih h.tail _ hlast]
    rfl

theorem firstOfEach_eq_self {seen : List Text} {l : Attributes} (hnodup : (l.map Prod.fst).Nodup)
    (hseen : ∀ a ∈ l, a.1 ∉ seen) : firstOfEach seen l = l := by
  induction l generalizing seen with
  | nil => rfl
  | cons a l ih =>
    obtain ⟨hnot, hnodup⟩ := List.nodup_cons.mp hnodup
    have hfirst : seen.contains a.1 = false := by
      simpa using hseen a List.mem_cons_self
    have hrest : firstOfEach (a.1 :: seen) l = l := by
      refine ih hnodup fun b hb hmem => ?_
      rcases List.mem_cons.mp hmem with heq | hmem
      · exact hnot (heq ▸ List.mem_map_of_mem hb)
      · exact hseen b (List.mem_cons_of_mem _ hb) hmem
    rw [firstOfEach, hfirst, hrest]
    rfl

theorem scanFrom_blank {gap : Text} (hgap : gap.all isBlank = true) (offset : Nat)
    (before : Option Char) : scanFrom rule offset 0 before gap = [] := by
  induction gap generalizing offset before with
  | nil => rfl
  | cons c r ih =>
    rw [List.all_cons, Bool.and_eq_true] at hgap
    have hpass : rule before (c :: r) = .pass := by
      rw [rule, if_neg (by simp [isNameChar, hgap.1])]
    rw [scanFrom, hpass]
    exact ih hgap.2 _ _

/-- Attributes that are written between quotes are read without the blanks around them. -/
theorem ofText_quoted {l : Attributes} (h : AreQuoted l) (gap : Text)
    (hgap : gap.all isBlank = true) : ofText (writtenAttributes l ++ gap) = trimmed l := by
  cases l with
  | nil =>
    rw [ofText, scan]
    exact congrArg (firstOfEach [] <| List.map (·.value) ·) (scanFrom_blank hgap 0 none)
  | cons a l =>
    have hshape : writtenAttributes (a :: l) ++ gap =
        ' ' :: (writtenAttribute a ++ (writtenAttributes l ++ gap)) := by
      simp [writtenAttributes]
    have hpass : rule none (' ' :: (writtenAttribute a ++ (writtenAttributes l ++ gap))) =
        .pass := by
      rw [rule, if_neg (by decide)]
    rw [ofText, hshape, scan, scanFrom, hpass]
    simp only
    rw [scanFrom_written gap hgap h _ (by decide)]
    refine firstOfEach_eq_self ?_ (by simp)
    rw [trimmed, List.map_map]
    exact h.nodup

/-- **Attributes that are written are read back.** -/
theorem ofText_written {l : Attributes} (h : AreAttributes l) (gap : Text)
    (hgap : gap.all isBlank = true) : ofText (writtenAttributes l ++ gap) = l := by
  have hself : trimmed l = l := by
    refine (List.map_congr_left fun a ha => ?_).trans (List.map_id l)
    exact Prod.ext rfl (h.values a ha).trimmed.trim_eq
  rw [ofText_quoted h.quoted gap hgap, hself]

end Attributes

/-! ## 4. Closing tags -/

/-- The closing tag of a reference. -/
def closingTag : Text := "</ref>".toList

section Closing

variable {word t u rest : Text}

/-- Whether a closing tag begins somewhere in front of a closing tag does not depend on what
stands behind that. -/
theorem refClosing?_eq_none (hu : u ≠ []) (h : refClosing? (u ++ closingTag) = none)
    (rest : Text) : refClosing? (u ++ closingTag ++ rest) = none := by
  have hlen : ("</ref".toList : Text).length ≤ (u ++ closingTag).length := by
    have hpos := List.length_pos_of_ne_nil hu
    have hfive : ("</ref".toList : Text).length = 5 := rfl
    have hsix : closingTag.length = 6 := rfl
    rw [List.length_append]
    omega
  have happend := keyword?_append hlen rest
  simp only [refClosing?, Option.bind_eq_bind] at h ⊢
  rw [happend]
  cases hk : keyword? "</ref".toList (u ++ closingTag) with
  | none => rfl
  | some r =>
    rw [hk] at h
    simp only [Option.bind_some, Option.map_some] at h ⊢
    -- what is left of the closing tag ends with its bracket, which is no blank
    have hlast : '>' ∈ r := by
      have hlength := length_of_keyword? hk
      obtain ⟨w, hw⟩ := suffix_of_keyword? hk
      have hr : r ≠ [] := by
        rintro rfl
        have hpos := List.length_pos_of_ne_nil hu
        rw [List.length_append] at hlength
        have hfive : ("</ref".toList : Text).length = 5 := rfl
        have hsix : closingTag.length = 6 := rfl
        rw [List.length_nil] at hlength
        omega
      refine List.mem_of_getLast? ?_
      rw [← List.getLast?_append_of_ne_nil w hr, hw]
      exact List.getLast?_append_of_ne_nil u (by decide)
    have hne : r.dropWhile isBlank ≠ [] := fun hnil =>
      absurd (List.dropWhile_eq_nil_iff.mp hnil _ hlast) (by decide)
    have hdrop : (r ++ rest).dropWhile isBlank = r.dropWhile isBlank ++ rest := by
      rw [List.dropWhile_append, if_neg (by simpa using hne)]
    obtain ⟨c, s, hs⟩ := List.exists_cons_of_ne_nil hne
    rw [hdrop, hs]
    rw [hs] at h
    simp only [after?, List.cons_append] at h ⊢
    split at h
    · cases h
    · rename_i hbracket
      rw [if_neg hbracket]

theorem until?_closingTag (h : until? refClosing? (u ++ closingTag) = some (u, []))
    (rest : Text) : until? refClosing? (u ++ closingTag ++ rest) = some (u, rest) := by
  induction u with
  | nil => rfl
  | cons c u ih =>
    rw [List.cons_append, until?] at h
    split at h
    · rename_i r hr
      exact absurd (congrArg (·.1) (Option.some.inj h)) (by simp)
    · rename_i hnone
      obtain ⟨⟨body, r⟩, hbody, heq⟩ := Option.map_eq_some_iff.mp h
      obtain ⟨rfl, rfl⟩ : body = u ∧ r = [] := by simpa using heq
      have hnone' := refClosing?_eq_none (List.cons_ne_nil c body) hnone rest
      rw [List.cons_append, List.cons_append, until?, ← List.cons_append, ← List.cons_append,
        hnone']
      simp only [ih hbody, Option.map_some]

end Closing

/-! ## 5. Tags -/

/-- A body that is read as it is between its tags: it is read by itself, no closing tag stands
in front of its own, and it holds no output list. -/
structure IsBody (names : List Text) (b : Text) : Prop where
  contained : SelfContained names b
  ends : until? refClosing? (b.veil ++ closingTag) = some (b.veil, [])
  unlisted : (Page.ofText b).templates names = []

/-- A body without brackets ends where its tag is closed. -/
theorem until?_untagged {b : Text} (h : '<' ∉ b) :
    until? refClosing? (b ++ closingTag) = some (b, []) := by
  induction b with
  | nil => rfl
  | cons c b ih =>
    obtain ⟨hc, hb⟩ := not_or.mp (List.mem_cons.not.mp h)
    have hnone : refClosing? (c :: (b ++ closingTag)) = none :=
      (congrArg (· >>= _) (keyword?_eq_none (Ne.symm hc) _ _)).trans rfl
    rw [List.cons_append, until?, hnone]
    simp only [ih hb, Option.map_some]

/-- A body without brackets and templates is read as it is. -/
theorem isBody_of_plain (names : List Text) {b : Text} (h : '<' ∉ b)
    (hpair : hasPair '{' b = false) (hlast : b.getLast? ≠ some '{') : IsBody names b where
  contained := .of_unbraced names h hpair hlast
  ends := by
    rw [veil_of_untagged h]
    exact until?_untagged h
  unlisted := by
    have hseen : (Page.ofText b).seen = b := veil_of_untagged h
    rw [Page.templates, Page.templatesWhere, hseen, (Splits.of_unbraced _ hpair hlast).2]
    rfl

/-- The attributes of a reference. -/
def referenceAttributes (name group : Option Text) : Attributes :=
  [("name".toList, name), ("group".toList, group)].filterMap fun a => a.2.map fun v => (a.1, v)

section Parts

variable {name group : Option Text} {names : List Text}

theorem escapedAttribute_eq {v : Text} (h : '"' ∉ v) : escapedAttribute v = v := by
  induction v with
  | nil => rfl
  | cons c v ih =>
    obtain ⟨hc, hv⟩ := not_or.mp (List.mem_cons.not.mp h)
    have hone : escapedAttribute (c :: v) =
        (if c = '"' then "&quot;".toList else [c]) ++ escapedAttribute v := rfl
    rw [hone, if_neg (Ne.symm hc), ih hv]
    rfl

theorem areAttributes_reference (hname : ∀ v ∈ name, IsAttribute v)
    (hgroup : ∀ v ∈ group, IsAttribute v) : AreAttributes (referenceAttributes name group) := by
  have hmem : ∀ a ∈ referenceAttributes name group,
      (a.1 = "name".toList ∧ a.2 ∈ name) ∨ (a.1 = "group".toList ∧ a.2 ∈ group) := by
    intro a ha
    obtain ⟨b, hb, heq⟩ := List.mem_filterMap.mp ha
    obtain ⟨v, hv, rfl⟩ := Option.map_eq_some_iff.mp heq
    rcases List.mem_cons.mp hb with rfl | hb
    · exact .inl ⟨rfl, hv⟩
    · obtain rfl := List.mem_singleton.mp hb
      exact .inr ⟨rfl, hv⟩
  refine ⟨fun a ha => ?_, fun a ha => ?_, ?_⟩
  · rcases hmem a ha with ⟨h, -⟩ | ⟨h, -⟩
    · exact List.mem_cons.mpr (.inl h)
    · exact List.mem_cons.mpr (.inr (List.mem_singleton.mpr h))
  · rcases hmem a ha with ⟨-, h⟩ | ⟨-, h⟩
    · exact hname _ h
    · exact hgroup _ h
  · cases name <;> cases group <;> simp [referenceAttributes]

/-- The attributes of a reference as they are written: those that are not empty, with each quote
as an entity. -/
def escapedAttributes (name group : Option Text) : Attributes :=
  (referenceAttributes (name.bind Text.nonempty?) (group.bind Text.nonempty?)).map fun a =>
    (a.1, escapedAttribute a.2)

theorem tagHead_escaped (name group : Option Text) :
    tagHead name group = "<ref".toList ++ writtenAttributes (escapedAttributes name group) := by
  have hattributes : tagAttributes name group =
      (escapedAttributes name group).map writtenAttribute := by
    rw [tagAttributes, escapedAttributes, referenceAttributes, List.map_map, List.map_filterMap]
    simp only [List.filterMap_cons, List.filterMap_nil]
    cases name.bind Text.nonempty? <;> cases group.bind Text.nonempty? <;>
      simp [writtenAttribute]
  rw [tagHead, hattributes, join_eq_flatMap, List.flatMap_map]
  rfl

theorem escapedAttributes_eq (hname : ∀ v ∈ name, IsAttribute v)
    (hgroup : ∀ v ∈ group, IsAttribute v) :
    escapedAttributes name group = referenceAttributes name group := by
  have hvalue : ∀ {value : Option Text}, (∀ v ∈ value, IsAttribute v) →
      value.bind Text.nonempty? = value := by
    intro value h
    cases value with
    | none => rfl
    | some v => exact nonempty?_of_ne (h v rfl).nonempty
  rw [escapedAttributes, hvalue hname, hvalue hgroup]
  refine (List.map_congr_left fun a ha => ?_).trans (List.map_id _)
  exact Prod.ext rfl
    (escapedAttribute_eq ((areAttributes_reference hname hgroup).values a ha).unquoted)

theorem value?_reference (hname : ∀ v ∈ name, IsAttribute v)
    (hgroup : ∀ v ∈ group, IsAttribute v) :
    (referenceAttributes name group).value? "name".toList = name ∧
      (referenceAttributes name group).value? "group".toList = group := by
  have hone : ∀ v, IsAttribute v → Text.nonempty? v = some v :=
    fun v hv => nonempty?_of_ne hv.nonempty
  cases name with
  | none =>
    cases group with
    | none => exact ⟨rfl, rfl⟩
    | some g => exact ⟨rfl, hone g (hgroup g rfl)⟩
  | some n =>
    cases group with
    | none => exact ⟨hone n (hname n rfl), rfl⟩
    | some g => exact ⟨hone n (hname n rfl), hone g (hgroup g rfl)⟩

/-- A tag of a reference begins no protected part. -/
theorem length?_ref {c : Char} (hc : c ∈ ['r', '/']) (t : Text) :
    Protected.length? ('<' :: c :: t) = none := by
  simp only [List.mem_cons, List.not_mem_nil, or_false] at hc
  rcases hc with rfl | rfl <;> rfl

/-- The veil leaves the text of a tag as it is. -/
theorem veil_append_of_tag {c : Char} (hc : c ∈ ['r', '/']) {u : Text} (hu : '<' ∉ u)
    (rest : Text) : Text.veil ('<' :: c :: u ++ rest) = '<' :: c :: u ++ rest.veil := by
  have hplain : '<' ∉ c :: u := fun hmem =>
    (List.mem_cons.mp hmem).elim (fun heq => absurd (heq ▸ hc) (by decide)) hu
  rw [List.cons_append, List.cons_append, Text.veil, veilFrom, length?_ref hc]
  exact congrArg ('<' :: ·) (veil_append_of_untagged hplain rest)

/-- A rule for tags passes over the text of a tag in which it finds none. -/
theorem Splits.of_tag {α : Type} {rule : Text → Verdict α} {u : Text} (hu : '<' ∉ u)
    (hrule : ∀ t, refOpening? t = none → rule t = .pass)
    (hpass : ∀ rest, rule ('<' :: u ++ rest) = .pass) :
    Splits rule ('<' :: u) ∧ scan (fun _ => rule) ('<' :: u) = [] := by
  obtain ⟨hsplits, hscan⟩ := Splits.of_untagged rule hu hrule
  have h := Splits.of_verdict (w := ['<']) .pass (by simp) rfl hpass hsplits
  rw [List.singleton_append, hscan] at h
  exact h

end Parts

namespace Page

variable {p : Page} {names : List Text} {t : RefTag}

theorem refTags_eq (p : Page) :
    p.refTags = sortByStart (·.span.start) (p.fullTags ++ p.emptyTags) := by
  rw [refTags, refTagsBetween_eq]
  rfl

/-- A page with one tag and nothing else. -/
theorem tokens_of_tag (hlists : p.templates names = []) (htags : p.refTags = [t])
    (hcites : p.citeMarks names = []) : p.tokens names = [.tag t] := by
  have hmarks : p.tagMarks names = [t] := by simp [tagMarks, inList, hlists, htags]
  rw [tokens_eq, hlists, hmarks, hcites]
  rfl

end Page

section Tags

variable {name group : Option Text} {names : List Text} {l : Attributes} {b : Text}

/-- The texts around the attributes of a tag. -/
theorem plain_of_written (h : AreAttributes l) (close : Text) (hclose : '<' ∉ close)
    (hpair : hasPair '{' close = false) :
    '<' ∉ "ref".toList ++ (writtenAttributes l ++ close) ∧
      hasPair '{' ("<ref".toList ++ (writtenAttributes l ++ close)) = false := by
  have hpair' := hasPair_writtenAttributes h hpair
  refine ⟨?_, ?_⟩
  · simp only [List.mem_append, not_or]
    exact ⟨by decide, not_mem_writtenAttributes h, hclose⟩
  · have hshape : "<ref".toList ++ (writtenAttributes l ++ close) =
        "<re".toList ++ 'f' :: (writtenAttributes l ++ close) := rfl
    rw [hshape, hasPair_append_cons (by decide), hpair']
    rfl

/-- A tag without content, as it is written. -/
def writtenEmptyTag (l : Attributes) : Text :=
  "<ref".toList ++ (writtenAttributes l ++ " />".toList)

theorem writtenEmptyTag_eq (l : Attributes) :
    writtenEmptyTag l = "<ref".toList ++ (writtenAttributes l ++ " />".toList) := rfl

/-- The blank in front of the slash is read with the attributes. -/
theorem writtenEmptyTag_eq_blank (l : Attributes) :
    writtenEmptyTag l = "<ref".toList ++ ((writtenAttributes l ++ [' ']) ++ "/>".toList) := by
  simp [writtenEmptyTag_eq]

theorem refOpening?_writtenEmptyTag (h : AreAttributes l) (rest : Text) :
    refOpening? (writtenEmptyTag l ++ rest) =
      some (⟨(writtenAttributes l).length + 1, true, (writtenAttributes l).length + 3⟩, rest) := by
  have happend : writtenEmptyTag l ++ rest =
      "<ref".toList ++ (writtenAttributes l ++ (" />".toList ++ rest)) := by
    simp only [writtenEmptyTag_eq, List.append_assoc]
  rw [happend, refOpening?_empty h.quoted]

theorem length_writtenEmptyTag (l : Attributes) :
    (writtenEmptyTag l).length = refHead + ((writtenAttributes l).length + 3) := by
  simp [writtenEmptyTag_eq, refHead]
  omega

/-- A written tag without content is seen as it is written. -/
theorem veil_writtenEmptyTag_append (h : AreAttributes l) (rest : Text) :
    Text.veil (writtenEmptyTag l ++ rest) = writtenEmptyTag l ++ rest.veil := by
  obtain ⟨huntagged, -⟩ := plain_of_written h " />".toList (by decide) (by decide)
  exact veil_append_of_tag (c := 'r') (by decide)
    (fun hmem => huntagged (List.mem_cons_of_mem _ hmem)) rest

theorem veil_writtenEmptyTag (h : AreAttributes l) :
    (writtenEmptyTag l).veil = writtenEmptyTag l := by
  simpa [Text.veil, veilFrom] using veil_writtenEmptyTag_append h []

/-- What the rules for tags and templates find in a written tag without content. -/
theorem splits_writtenEmptyTag (h : AreAttributes l) :
    (Splits fullTagRule (writtenEmptyTag l) ∧
      scan (fun _ => fullTagRule) (writtenEmptyTag l) = []) ∧
    (Splits emptyTagRule (writtenEmptyTag l) ∧
      scan (fun _ => emptyTagRule) (writtenEmptyTag l) =
        [⟨Span.ofLength 0 (writtenEmptyTag l).length,
          ⟨(writtenAttributes l).length + 1, true, (writtenAttributes l).length + 3⟩⟩]) ∧
    ∀ wanted, Splits (invocationRule wanted) (writtenEmptyTag l) ∧
      scan (fun _ => invocationRule wanted) (writtenEmptyTag l) = [] := by
  obtain ⟨huntagged, hpair⟩ := plain_of_written h " />".toList (by decide) (by decide)
  have hshape : writtenEmptyTag l =
      '<' :: ("ref".toList ++ (writtenAttributes l ++ " />".toList)) := rfl
  refine ⟨?_, ?_, fun wanted => ?_⟩
  · have hpass : ∀ rest, fullTagRule (writtenEmptyTag l ++ rest) = .pass := fun rest => by
      rw [fullTagRule, refOpening?_writtenEmptyTag h]
      rfl
    have hall := Splits.of_tag huntagged (fun _ => fullTagRule_pass) hpass
    rwa [← hshape] at hall
  · have hfound : ∀ rest, emptyTagRule (writtenEmptyTag l ++ ([] ++ rest)) =
        .found (writtenEmptyTag l).length
          ⟨(writtenAttributes l).length + 1, true, (writtenAttributes l).length + 3⟩ :=
      fun rest => by
        rw [List.nil_append, emptyTagRule, refOpening?_writtenEmptyTag h, length_writtenEmptyTag]
        rfl
    have hall := Splits.of_verdict _ (by simp [hshape]) rfl hfound Splits.nil
    simpa [Verdict.findings, scan, scanFrom] using hall
  · have happend : writtenEmptyTag l = "<ref".toList ++ writtenAttributes l ++ " />".toList := by
      rw [writtenEmptyTag_eq, List.append_assoc]
    have hlast : (writtenEmptyTag l).getLast? ≠ some '{' := by
      rw [happend, List.getLast?_append_of_ne_nil _ (by decide)]
      decide
    exact Splits.of_unbraced wanted hpair hlast

/-- The attributes of a written tag without content are those that were written. -/
theorem attributes_writtenEmptyTag (h : AreAttributes l) :
    Attributes.ofText ((writtenEmptyTag l).slice refHead
      (refHead + ((writtenAttributes l).length + 1))) = l := by
  have hslice : (writtenEmptyTag l).slice refHead
      (refHead + ((writtenAttributes l).length + 1)) = writtenAttributes l ++ [' '] := by
    rw [writtenEmptyTag_eq_blank]
    exact Text.slice_between _ _ _ rfl (by simp; rfl)
  rw [hslice, Attributes.ofText_written h [' '] (by decide)]

/-- **A written tag without content is read by itself**, and it is the only mark in it. -/
theorem selfContained_writtenEmptyTag (h : AreAttributes l) :
    SelfContained names (writtenEmptyTag l) ∧
      (Page.ofText (writtenEmptyTag l)).tokens names =
        [.tag ⟨Span.ofLength 0 (writtenEmptyTag l).length, l, .none⟩] := by
  have hseen : (Page.ofText (writtenEmptyTag l)).seen = writtenEmptyTag l := veil_writtenEmptyTag h
  obtain ⟨⟨hfull, hfullScan⟩, ⟨hempty, hemptyScan⟩, hbraces⟩ := splits_writtenEmptyTag h
  refine ⟨⟨fun rest => by rw [veil_writtenEmptyTag_append h, veil_writtenEmptyTag h],
    ?_, ?_, ?_, ?_⟩, ?_⟩
  · rwa [hseen]
  · rwa [hseen]
  · rw [hseen]
    exact (hbraces _).1
  · rw [hseen]
    exact (hbraces _).1
  · have hfullTags : (Page.ofText (writtenEmptyTag l)).fullTags = [] := by
      rw [Page.fullTags_eq, hseen, hfullScan]
      rfl
    have hemptyTags : (Page.ofText (writtenEmptyTag l)).emptyTags =
        [⟨Span.ofLength 0 (writtenEmptyTag l).length, l, .none⟩] := by
      rw [Page.emptyTags_eq, hfullTags, Page.emptyFindings, hseen, hemptyScan]
      simp only [List.map_cons, List.map_nil, Page.emptyTag, Page.attributesOf, Page.ofText,
        Span.start_ofLength, Nat.zero_add, attributes_writtenEmptyTag h, List.any_nil,
        Bool.not_false, List.filter_true]
    have hlists : (Page.ofText (writtenEmptyTag l)).templates names = [] := by
      rw [Page.templates, Page.templatesWhere, hseen, (hbraces _).2]
      rfl
    have hcites : (Page.ofText (writtenEmptyTag l)).citeMarks names = [] := by
      rw [Page.citeMarks, Page.templates, Page.templatesWhere, hseen, (hbraces _).2]
      rfl
    refine Page.tokens_of_tag hlists ?_ hcites
    rw [Page.refTags_eq, hfullTags, hemptyTags]
    rfl

/-- An opening tag, as it is written. -/
def writtenOpening (l : Attributes) : Text := "<ref".toList ++ (writtenAttributes l ++ ['>'])

/-- A tag with content, as it is written. -/
def writtenTag (l : Attributes) (b : Text) : Text := writtenOpening l ++ b ++ closingTag

/-- The tag that is read where one is written. -/
def RefTag.ofWritten (l : Attributes) (b : Text) : RefTag :=
  ⟨Span.ofLength 0 (writtenTag l b).length, l, .body b (writtenOpening l).length⟩

theorem writtenOpening_eq (l : Attributes) :
    writtenOpening l = "<ref".toList ++ (writtenAttributes l ++ ['>']) := rfl

theorem writtenTag_eq (l : Attributes) (b : Text) :
    writtenTag l b = "<ref".toList ++ (writtenAttributes l ++ '>' :: (b ++ closingTag)) := by
  simp only [writtenTag, writtenOpening_eq, List.append_assoc, List.cons_append, List.nil_append]

theorem length_writtenOpening (l : Attributes) :
    (writtenOpening l).length = refHead + ((writtenAttributes l).length + 1) := by
  simp [writtenOpening_eq, refHead]
  omega

theorem veil_writtenTag_append (h : AreAttributes l) (hb : IsBody names b) (rest : Text) :
    Text.veil (writtenTag l b ++ rest) = writtenTag l b.veil ++ rest.veil := by
  obtain ⟨huntagged, -⟩ := plain_of_written h ['>'] (by decide) (by decide)
  have hopening : ∀ r, Text.veil (writtenOpening l ++ r) = writtenOpening l ++ r.veil :=
    veil_append_of_tag (c := 'r') (by decide) fun hmem =>
      huntagged (List.mem_cons_of_mem _ hmem)
  have hclosing : ∀ r, Text.veil (closingTag ++ r) = closingTag ++ r.veil :=
    veil_append_of_tag (c := '/') (u := "ref>".toList) (by decide) (by decide)
  rw [writtenTag, writtenTag, List.append_assoc, List.append_assoc, hopening, hb.contained.veil,
    hclosing]
  simp only [List.append_assoc]

theorem veil_writtenTag (h : AreAttributes l) (hb : IsBody names b) :
    (writtenTag l b).veil = writtenTag l b.veil := by
  simpa [Text.veil, veilFrom] using veil_writtenTag_append h hb []

theorem refOpening?_writtenOpening (h : AreAttributes l) (rest : Text) :
    refOpening? (writtenOpening l ++ rest) =
      some (⟨(writtenAttributes l).length, false, (writtenAttributes l).length + 1⟩, rest) := by
  have happend : writtenOpening l ++ rest =
      "<ref".toList ++ (writtenAttributes l ++ '>' :: rest) := by
    simp only [writtenOpening_eq, List.append_assoc, List.cons_append, List.nil_append]
  rw [happend, refOpening?_written h.quoted]

/-- No template begins in the tags around a body. -/
theorem splits_invocations_writtenTag (h : AreAttributes l) {wanted : Text → Bool}
    (hbody : Splits (invocationRule wanted) b.veil) :
    Splits (invocationRule wanted) (writtenTag l b.veil) ∧
      (scan (fun _ => invocationRule wanted) b.veil = [] →
        scan (fun _ => invocationRule wanted) (writtenTag l b.veil) = []) := by
  obtain ⟨-, hpair⟩ := plain_of_written h ['>'] (by decide) (by decide)
  have happend : writtenOpening l = "<ref".toList ++ writtenAttributes l ++ ['>'] := by
    rw [writtenOpening_eq, List.append_assoc]
  have hlast : (writtenOpening l).getLast? ≠ some '{' := by
    rw [happend, List.getLast?_append_of_ne_nil _ (by decide)]
    decide
  obtain ⟨hfront, hfrontScan⟩ := Splits.of_unbraced wanted hpair hlast
  obtain ⟨hback, hbackScan⟩ := Splits.of_unbraced wanted (u := closingTag) (by decide) (by decide)
  refine ⟨(hfront.append hbody).append hback, fun hscan => ?_⟩
  have hfrontScan' : scan (fun _ => invocationRule wanted) (writtenOpening l) = [] := hfrontScan
  have hfront' := hfront (b.veil ++ closingTag)
  rw [writtenTag, List.append_assoc]
  refine hfront'.trans ?_
  rw [hbody, hscan, hbackScan]
  exact congrArg (· ++ []) hfrontScan'

/-- What the rules for tags and templates find in a written tag. -/
theorem splits_writtenTag (h : AreAttributes l) (hb : IsBody names b) :
    (Splits fullTagRule (writtenTag l b.veil) ∧
      scan (fun _ => fullTagRule) (writtenTag l b.veil) =
        [⟨Span.ofLength 0 (writtenTag l b).length,
          ⟨(writtenAttributes l).length, false, (writtenAttributes l).length + 1⟩, b.length⟩]) ∧
    Splits emptyTagRule (writtenTag l b.veil) ∧
    (Splits (invocationRule (isNameOf names)) (writtenTag l b.veil) ∧
      scan (fun _ => invocationRule (isNameOf names)) (writtenTag l b.veil) = []) ∧
    Splits (invocationRule (isNameOf [chainName, locatorName])) (writtenTag l b.veil) := by
  obtain ⟨huntagged, -⟩ := plain_of_written h ['>'] (by decide) (by decide)
  have hlists : scan (fun _ => invocationRule (isNameOf names)) b.veil = [] :=
    List.map_eq_nil_iff.mp hb.unlisted
  refine ⟨?_, ?_, ?_, ?_⟩
  · have hfound : ∀ rest, fullTagRule (writtenTag l b.veil ++ ([] ++ rest)) =
        .found (writtenTag l b).length
          (⟨(writtenAttributes l).length, false, (writtenAttributes l).length + 1⟩, b.length) :=
      fun rest => by
        have hends := until?_closingTag hb.ends rest
        rw [List.nil_append, writtenTag, List.append_assoc, List.append_assoc, fullTagRule,
          refOpening?_writtenOpening h]
        rw [List.append_assoc] at hends
        simp only [hends, Bool.false_eq_true, if_false, writtenTag, List.length_append,
          length_veil, Verdict.found.injEq, and_true]
        omega
    have hne : writtenTag l b.veil ≠ [] := by simp [writtenTag_eq]
    have hlength : (writtenTag l b).length = (writtenTag l b.veil).length := by
      simp [writtenTag]
    have hall := Splits.of_verdict (.found (writtenTag l b).length
      ((⟨(writtenAttributes l).length, false, (writtenAttributes l).length + 1⟩ : Opening),
        b.length)) hne hlength hfound Splits.nil
    simpa [Verdict.findings, scan, scanFrom] using hall
  · have hpass : ∀ rest, emptyTagRule (writtenOpening l ++ rest) = .pass := fun rest => by
      rw [emptyTagRule, refOpening?_writtenOpening h]
      rfl
    have hfront := (Splits.of_tag huntagged (fun _ => emptyTagRule_pass) hpass).1
    have hback : Splits emptyTagRule closingTag :=
      (Splits.of_tag (u := "/ref>".toList) (by decide) (fun _ => emptyTagRule_pass)
        fun _ => rfl).1
    exact (Splits.append hfront hb.contained.marks.empty).append hback
  · have hall := splits_invocations_writtenTag h hb.contained.marks.lists
    exact ⟨hall.1, hall.2 hlists⟩
  · exact (splits_invocations_writtenTag h hb.contained.marks.cites).1

/-- The tag with content that is read in a written tag is the one that was written. -/
theorem fullTags_writtenTag (h : AreAttributes l) (hb : IsBody names b) :
    (Page.ofText (writtenTag l b)).fullTags = [RefTag.ofWritten l b] := by
  obtain ⟨⟨-, hfullScan⟩, -⟩ := splits_writtenTag h hb
  have hseen : (Page.ofText (writtenTag l b)).seen = writtenTag l b.veil := veil_writtenTag h hb
  have hslice : (writtenTag l b).slice refHead (refHead + (writtenAttributes l).length) =
      writtenAttributes l := by
    rw [writtenTag_eq]
    exact Text.slice_between _ _ _ rfl rfl
  have hattributes := Attributes.ofText_written h [] rfl
  rw [List.append_nil, ← hslice] at hattributes
  have hbody : (writtenTag l b).slice (writtenOpening l).length
      ((writtenOpening l).length + b.length) = b := by
    rw [writtenTag, List.append_assoc]
    exact Text.slice_between _ _ _ rfl rfl
  rw [length_writtenOpening] at hbody
  rw [Page.fullTags_eq, hseen, hfullScan, List.map_singleton, RefTag.ofWritten,
    length_writtenOpening]
  simp only [Page.fullTag, Page.attributesOf, Page.ofText, Span.start_ofLength, Nat.zero_add,
    hattributes, hbody]

/-- **A written tag is read by itself**, and it is the only mark in it. -/
theorem selfContained_writtenTag (h : AreAttributes l) (hb : IsBody names b) :
    SelfContained names (writtenTag l b) ∧
      (Page.ofText (writtenTag l b)).tokens names = [.tag (RefTag.ofWritten l b)] := by
  obtain ⟨⟨hfull, -⟩, hempty, ⟨hlists, hlistScan⟩, hcites⟩ := splits_writtenTag h hb
  have hfullTags := fullTags_writtenTag h hb
  have hself := veil_writtenTag h hb
  have hseen : (Page.ofText (writtenTag l b)).seen = writtenTag l b.veil := hself
  refine ⟨⟨fun rest => by rw [veil_writtenTag_append h hb, hself], ?_, ?_, ?_, ?_⟩, ?_⟩
  · rwa [hseen]
  · rwa [hseen]
  · rwa [hseen]
  · rwa [hseen]
  · -- what begins in the body belongs to it
    have hinside : ∀ i < (writtenTag l b).length,
        (RefTag.ofWritten l b).span.contains i = true := fun i hi =>
      Span.contains_iff.mpr ⟨Nat.zero_le _, by simpa [RefTag.ofWritten] using hi⟩
    have hemptyTags : (Page.ofText (writtenTag l b)).emptyTags = [] := by
      rw [Page.emptyTags_eq, hfullTags, List.filter_eq_nil_iff]
      intro e he
      have hlt := Page.start_lt_of_mem_emptyFindings he
      simp [hinside _ hlt]
    have hnoLists : (Page.ofText (writtenTag l b)).templates names = [] := by
      rw [Page.templates, Page.templatesWhere, hseen, hlistScan]
      rfl
    have htags : (Page.ofText (writtenTag l b)).refTags = [RefTag.ofWritten l b] := by
      rw [Page.refTags_eq, hfullTags, hemptyTags]
      rfl
    refine Page.tokens_of_tag hnoLists htags ?_
    have hmarks : (Page.ofText (writtenTag l b)).tagMarks names = [RefTag.ofWritten l b] := by
      simp [Page.tagMarks, Page.inList, hnoLists, htags]
    rw [Page.citeMarks, hmarks, List.filter_eq_nil_iff]
    intro c hc
    have hi := Page.isInvocation_of_mem hc
    have hlt : c.span.start < (writtenTag l b).length := Nat.lt_of_lt_of_le hi.start_lt hi.stop_le
    have hin : (RefTag.ofWritten l b).isFull = true ∧
        (RefTag.ofWritten l b).span.contains c.span.start = true := ⟨rfl, hinside _ hlt⟩
    simp [hin]

end Tags

/-! ## 6. Tags of references -/

section References

variable {name group : Option Text} {names : List Text} {b : Text}

theorem tagAround_eq_writtenTag (name group : Option Text) (b : Text) :
    tagAround name group b = writtenTag (escapedAttributes name group) b := by
  rw [tagAround, openingTag, tagHead_escaped, writtenTag, writtenOpening_eq,
    ← List.append_assoc "<ref".toList]
  rfl

theorem citation_eq_writtenEmptyTag (group : Option Text) {n : Text} (hn : n ≠ []) :
    citation (some n) group false = writtenEmptyTag (escapedAttributes (some n) group) := by
  have hcitation : citation (some n) group false = tagHead (some n) group ++ " />".toList := by
    simp [citation, nonempty?_of_ne hn]
  rw [hcitation, tagHead_escaped, writtenEmptyTag_eq, List.append_assoc]

theorem tagAround_eq (hname : ∀ v ∈ name, IsAttribute v) (hgroup : ∀ v ∈ group, IsAttribute v)
    (b : Text) : tagAround name group b = writtenTag (referenceAttributes name group) b := by
  rw [tagAround_eq_writtenTag, escapedAttributes_eq hname hgroup]

theorem citation_eq (hname : ∀ v ∈ name, IsAttribute v) (hgroup : ∀ v ∈ group, IsAttribute v)
    (hsome : name.isSome) :
    citation name group false = writtenEmptyTag (referenceAttributes name group) := by
  obtain ⟨n, rfl⟩ := Option.isSome_iff_exists.mp hsome
  rw [citation_eq_writtenEmptyTag group (hname n rfl).nonempty, escapedAttributes_eq hname hgroup]

end References

end CiteMarkup
