import CiteMarkup.OutputList
import CiteMarkup.Proofs.Order.Firsts
import CiteMarkup.Proofs.Order.Natural
/-!
# Names in order

A name is sorted by what stands in it in turn: texts without digits, and numbers between them.  The
pieces are those between which digits begin or end (`IsCutAtDigits`), so a key is a list that begins
and ends with a text and has a number at every second place (`NaturalKey.parts_of`).  Keys are
compared where they first differ, and there a text never stands against a number
(`compareParts?_parts`).

What has the same key keeps its order.  That and the order of the keys settle how a list is sorted
(`IsSortedByKey.unique`), so the order in which entries come matters only where keys are the same.

The main result is `names_sorted_naturally`.
-/

namespace CiteMarkup

/-! ## 1. Names in pieces -/

/-- The pieces of a name: texts without digits at the even places and runs of digits at the odd
ones.  Only the first text and the last one can be empty, so no run goes on in the next one. -/
structure IsCutAtDigits (name : Text) (pieces : List Text) : Prop where
  joined : pieces.flatten = name
  odd : pieces.length % 2 = 1
  text : ∀ (i : Nat) u, pieces[i]? = some u → i % 2 = 0 → ∀ c ∈ u, isDigit c = false
  digits : ∀ (i : Nat) u, pieces[i]? = some u → i % 2 = 1 → u ≠ [] ∧ ∀ c ∈ u, isDigit c = true
  between : ∀ (i : Nat) u, pieces[i]? = some u → i % 2 = 0 → 0 < i → i + 1 < pieces.length → u ≠ []

section Pieces

variable {name u d : Text} {pieces : List Text} {tail : List (Text × Text)} {c : Char}

/-- A text and runs of digits with a text behind each, in turn. -/
def inTurn (head : Text) (tail : List (Text × Text)) : List Text :=
  head :: tail.flatMap fun e => [e.1, e.2]

theorem inTurn_cons (head d t : Text) (tail : List (Text × Text)) :
    inTurn head ((d, t) :: tail) = head :: d :: inTurn t tail := rfl

theorem isCutAtDigits_nil_iff : IsCutAtDigits name (inTurn u []) ↔
    name = u ∧ ∀ c ∈ u, isDigit c = false := by
  constructor
  · intro h
    exact ⟨by simpa [inTurn] using h.joined.symm, h.text 0 u rfl rfl⟩
  · rintro ⟨rfl, hu⟩
    refine ⟨by simp [inTurn], rfl, fun i v hv _ => ?_, fun i v hv hi => ?_,
      fun i v _ _ hi hlt => ?_⟩
    · obtain ⟨rfl, rfl⟩ : i = 0 ∧ name = v := by
        cases i with
        | zero => exact ⟨rfl, by simpa [inTurn] using hv⟩
        | succ i => simp [inTurn] at hv
      exact hu
    · obtain rfl : i = 0 := by
        cases i with
        | zero => rfl
        | succ i => simp [inTurn] at hv
      cases hi
    · simp [inTurn] at hlt

/-- The first run of digits ends where the next text begins. -/
theorem isCutAtDigits_cons_iff {t : Text} : IsCutAtDigits name (inTurn u ((d, t) :: tail)) ↔
    (∀ c ∈ u, isDigit c = false) ∧ d ≠ [] ∧ (∀ c ∈ d, isDigit c = true) ∧ (tail ≠ [] → t ≠ []) ∧
      ∃ rest, name = u ++ (d ++ rest) ∧ IsCutAtDigits rest (inTurn t tail) := by
  rw [inTurn_cons]
  constructor
  · intro h
    have hjoined := h.joined
    rw [List.flatten_cons, List.flatten_cons] at hjoined
    have hodd := h.odd
    rw [List.length_cons, List.length_cons] at hodd
    refine ⟨h.text 0 u rfl rfl, (h.digits 1 d rfl rfl).1, (h.digits 1 d rfl rfl).2, fun hne => ?_,
      _, hjoined.symm, rfl, by omega, fun i v hv hi => h.text (i + 2) v hv (by omega),
      fun i v hv hi => h.digits (i + 2) v hv (by omega), fun i v hv hi hpos hlt =>
        h.between (i + 2) v hv (by omega) (by omega) (by
          rw [List.length_cons, List.length_cons]
          omega)⟩
    refine h.between 2 t rfl rfl (by omega) ?_
    obtain ⟨e, more, rfl⟩ := List.exists_cons_of_ne_nil hne
    simp [inTurn]
  · rintro ⟨hu, hd, hdigits, ht, rest, rfl, h⟩
    have hodd := h.odd
    refine ⟨?_, ?_, ?_, ?_, ?_⟩
    · rw [List.flatten_cons, List.flatten_cons, h.joined]
    · rw [List.length_cons, List.length_cons]
      omega
    · rintro (_ | _ | i) v hv hi
      · obtain rfl := Option.some.inj hv
        exact hu
      · cases hi
      · exact h.text i v hv (by omega)
    · rintro (_ | _ | i) v hv hi
      · cases hi
      · obtain rfl := Option.some.inj hv
        exact ⟨hd, hdigits⟩
      · exact h.digits i v hv (by omega)
    · rintro (_ | _ | _ | i) v hv hi hpos hlt
      · omega
      · cases hi
      · obtain rfl : t = v := Option.some.inj hv
        refine ht ?_
        rintro rfl
        simp [inTurn] at hlt
      · rw [List.length_cons, List.length_cons] at hlt
        exact h.between (i + 1) v hv (by omega) (by omega) (by omega)

/-! A character goes to the text in front of which it stands; a digit goes to the run in front of
which it stands, or begins a run. -/

theorem extend_text (hc : isDigit c = false) (t : Text) (tail : List (Text × Text)) :
    NaturalKey.extend c (t, tail) = (c :: t, tail) := by
  simp [NaturalKey.extend, hc]

theorem extend_run (hc : isDigit c = true) (d t : Text) (tail : List (Text × Text)) :
    NaturalKey.extend c ([], (d, t) :: tail) = ([], (c :: d, t) :: tail) := by
  rw [NaturalKey.extend, if_pos hc]

theorem extend_digit (hc : isDigit c = true) {t : Text} (ht : tail ≠ [] → t ≠ []) :
    NaturalKey.extend c (t, tail) = ([], ([c], t) :: tail) := by
  cases t with
  | cons a t => simp [NaturalKey.extend, hc]
  | nil =>
    cases tail with
    | nil => simp [NaturalKey.extend, hc]
    | cons e tail => exact absurd rfl (ht (List.cons_ne_nil e tail))

/-- A text without digits goes in front of what is read behind it. -/
theorem foldr_extend_text (hu : ∀ c ∈ u, isDigit c = false) (t : Text)
    (tail : List (Text × Text)) : u.foldr NaturalKey.extend (t, tail) = (u ++ t, tail) := by
  induction u with
  | nil => rfl
  | cons c u ih =>
    rw [List.foldr_cons, ih fun d hd => hu d (List.mem_cons_of_mem _ hd),
      extend_text (hu c List.mem_cons_self)]
    rfl

/-- A run of digits in front of a text is one number. -/
theorem foldr_extend_digits (hne : d ≠ []) (hd : ∀ c ∈ d, isDigit c = true) {t : Text}
    (ht : tail ≠ [] → t ≠ []) : d.foldr NaturalKey.extend (t, tail) = ([], (d, t) :: tail) := by
  induction d with
  | nil => exact absurd rfl hne
  | cons c d ih =>
    have hc := hd c List.mem_cons_self
    cases d with
    | nil => exact extend_digit hc ht
    | cons b d =>
      rw [List.foldr_cons, ih (by simp) fun x hx => hd x (List.mem_cons_of_mem _ hx),
        extend_run hc]

/-- The pieces of a name are what its key is read from. -/
theorem foldr_extend_of_isCutAtDigits (h : IsCutAtDigits name (inTurn u tail)) :
    name.foldr NaturalKey.extend ([], []) = (u, tail) := by
  induction tail generalizing name u with
  | nil =>
    obtain ⟨rfl, hu⟩ := isCutAtDigits_nil_iff.mp h
    rw [foldr_extend_text hu, List.append_nil]
  | cons e tail ih =>
    obtain ⟨d, t⟩ := e
    obtain ⟨hu, hne, hd, ht, rest, rfl, hrest⟩ := isCutAtDigits_cons_iff.mp h
    rw [List.foldr_append, List.foldr_append, ih hrest, foldr_extend_digits hne hd ht,
      foldr_extend_text hu, List.append_nil]

/-- Every name has pieces. -/
theorem isCutAtDigits_foldr (name : Text) : IsCutAtDigits name
    (inTurn (name.foldr NaturalKey.extend ([], [])).1
      (name.foldr NaturalKey.extend ([], [])).2) := by
  induction name with
  | nil => exact isCutAtDigits_nil_iff.mpr ⟨rfl, by simp⟩
  | cons c name ih =>
    generalize hparts : name.foldr NaturalKey.extend ([], []) = parts at ih
    obtain ⟨u, tail⟩ := parts
    rw [List.foldr_cons, hparts]
    cases hc : isDigit c with
    | true =>
      match u, tail with
      | [], (d, t) :: tail =>
        obtain ⟨hu, hne, hd, ht, rest, rfl, hrest⟩ := isCutAtDigits_cons_iff.mp ih
        rw [extend_run hc]
        exact isCutAtDigits_cons_iff.mpr ⟨hu, List.cons_ne_nil c d,
          List.forall_mem_cons.mpr ⟨hc, hd⟩, ht, rest, rfl, hrest⟩
      | [], [] =>
        rw [extend_digit hc (by simp)]
        exact isCutAtDigits_cons_iff.mpr ⟨by simp, by simp, by simpa using hc, by simp,
          name, rfl, ih⟩
      | a :: u, tail =>
        rw [extend_digit hc (by simp)]
        exact isCutAtDigits_cons_iff.mpr ⟨by simp, by simp, by simpa using hc, by simp,
          name, rfl, ih⟩
    | false =>
      rw [extend_text hc]
      cases tail with
      | nil =>
        obtain ⟨rfl, hu⟩ := isCutAtDigits_nil_iff.mp ih
        exact isCutAtDigits_nil_iff.mpr ⟨rfl, List.forall_mem_cons.mpr ⟨hc, hu⟩⟩
      | cons e tail =>
        obtain ⟨hu, hne, hd, ht, rest, rfl, hrest⟩ := isCutAtDigits_cons_iff.mp ih
        exact isCutAtDigits_cons_iff.mpr ⟨List.forall_mem_cons.mpr ⟨hc, hu⟩, hne, hd, ht, rest, rfl,
          hrest⟩

/-- Pieces in an odd number are a text and pairs of digits and text. -/
theorem exists_inTurn (h : pieces.length % 2 = 1) : ∃ u tail, pieces = inTurn u tail := by
  induction hn : pieces.length using Nat.strongRecOn generalizing pieces with
  | ind n ih =>
  match pieces with
  | [] => cases h
  | [u] => exact ⟨u, [], rfl⟩
  | u :: d :: rest =>
    rw [List.length_cons, List.length_cons] at h hn
    obtain ⟨t, tail, rfl⟩ := @ih rest.length (by omega) rest (by omega) rfl
    exact ⟨u, (d, t) :: tail, rfl⟩

end Pieces

/-! ## 2. Keys as lists -/

/-- A part of a key. -/
inductive KeyPart where
  | text (t : Text)
  | number (n : Nat)
  deriving DecidableEq, Repr

/-- The part of a key that a piece of a name stands for: texts are folded, and digits of any script
are read as a number. -/
def KeyPart.ofPiece (i : Nat) (piece : Text) : KeyPart :=
  if i % 2 = 0 then .text piece.folded else .number piece.digitsValue

/-- Behind a text and a run of digits the places are even and odd as before. -/
theorem KeyPart.ofPiece_add_two (i : Nat) : ofPiece (i + 1 + 1) = ofPiece i := by
  funext piece
  have hparity : (i + 1 + 1) % 2 = i % 2 := by omega
  rw [ofPiece, ofPiece, hparity]

/-- Two parts of one kind compare; there is no order between a text and a number. -/
def KeyPart.compare? : KeyPart → KeyPart → Option Ordering
  | .text s, .text t => some (compareText s t)
  | .number m, .number n => some (compare m n)
  | .text _, .number _ | .number _, .text _ => none

/-- Lists of parts compare by the first parts that differ; of two lists that agree as far as the
shorter one goes, that is the lesser one. -/
def compareParts? : List KeyPart → List KeyPart → Option Ordering
  | [], [] => some .eq
  | [], _ :: _ => some .lt
  | _ :: _, [] => some .gt
  | a :: p, b :: q => if a = b then compareParts? p q else a.compare? b

/-- Texts and numbers in turn, with a text at both ends. -/
structure Alternates (parts : List KeyPart) : Prop where
  odd : parts.length % 2 = 1
  text : ∀ (i : Nat) a, parts[i]? = some a → i % 2 = 0 → ∃ t, a = .text t
  number : ∀ (i : Nat) a, parts[i]? = some a → i % 2 = 1 → ∃ n, a = .number n

namespace NaturalKey

variable {a b : NaturalKey} {name : Text} {pieces : List Text}

/-- Numbers with texts behind them, as one list. -/
def tailParts (tail : List (Nat × Text)) : List KeyPart :=
  tail.flatMap fun e => [.number e.1, .text e.2]

theorem tailParts_cons (n : Nat) (t : Text) (tail : List (Nat × Text)) :
    tailParts ((n, t) :: tail) = .number n :: .text t :: tailParts tail := rfl

/-- The key as one list. -/
def parts (k : NaturalKey) : List KeyPart := .text k.head :: tailParts k.tail

theorem mapIdx_inTurn (head : Text) (tail : List (Text × Text)) :
    (inTurn head tail).mapIdx KeyPart.ofPiece =
      .text head.folded ::
        tailParts (tail.map fun (d, t) => (Text.digitsValue d, Text.folded t)) := by
  induction tail generalizing head with
  | nil => rfl
  | cons e tail ih =>
    obtain ⟨d, t⟩ := e
    rw [inTurn_cons, List.mapIdx_cons, List.mapIdx_cons]
    simp only [KeyPart.ofPiece_add_two]
    rw [ih, List.map_cons, tailParts_cons]
    rfl

/-- **A key says what the pieces of the name say**, each at its place. -/
theorem parts_of (h : IsCutAtDigits name pieces) :
    (of name).parts = pieces.mapIdx KeyPart.ofPiece := by
  obtain ⟨u, tail, rfl⟩ := exists_inTurn h.odd
  rw [mapIdx_inTurn, of, foldr_extend_of_isCutAtDigits h]
  rfl

theorem alternates_parts (name : Text) : Alternates (of name).parts := by
  have h := isCutAtDigits_foldr name
  rw [parts_of h]
  refine ⟨by rw [List.length_mapIdx]; exact h.odd, fun i a ha hi => ?_, fun i a ha hi => ?_⟩
  · rw [List.getElem?_mapIdx] at ha
    obtain ⟨piece, -, rfl⟩ := Option.map_eq_some_iff.mp ha
    exact ⟨_, if_pos hi⟩
  · rw [List.getElem?_mapIdx] at ha
    obtain ⟨piece, -, rfl⟩ := Option.map_eq_some_iff.mp ha
    exact ⟨_, if_neg (by omega)⟩

/-! ## 3. Comparing keys -/

theorem compareText_eq_iff {s t : Text} : compareText s t = .eq ↔ s = t := by
  induction s generalizing t with
  | nil => cases t <;> simp [compareText]
  | cons a s ih =>
    cases t with
    | nil => simp [compareText]
    | cons b t =>
      rw [compareText, Ordering.then_eq_eq, ih, Nat.compare_eq_eq, List.cons.injEq, Char.toNat_inj]

theorem compareTails_eq_iff {p q : List (Nat × Text)} : compareTails p q = .eq ↔ p = q := by
  induction p generalizing q with
  | nil => cases q <;> simp [compareTails]
  | cons a p ih =>
    cases q with
    | nil => simp [compareTails]
    | cons b q =>
      obtain ⟨m, s⟩ := a
      obtain ⟨n, t⟩ := b
      rw [compareTails, Ordering.then_eq_eq, Ordering.then_eq_eq, ih, Nat.compare_eq_eq,
        compareText_eq_iff, List.cons.injEq, Prod.mk.injEq]

/-- Only a key itself compares equal to it. -/
theorem compare_eq_iff : a.compare b = .eq ↔ a = b := by
  obtain ⟨s, p⟩ := a
  obtain ⟨t, q⟩ := b
  rw [compare, Ordering.then_eq_eq, compareText_eq_iff, compareTails_eq_iff, mk.injEq]

theorem eq_of_le_of_le (hab : a.le b = true) (hba : b.le a = true) : a = b := by
  rw [le_eq_isLE] at hab hba
  exact compare_eq_iff.mp (Std.OrientedCmp.isLE_antisymm hab hba)

/-- Where two parts of one kind differ, the comparison is settled. -/
theorem compareParts?_text (s t : Text) (p q : List KeyPart) :
    compareParts? (.text s :: p) (.text t :: q) =
      if s = t then compareParts? p q else some (compareText s t) := by
  simp only [compareParts?, KeyPart.text.injEq]
  rfl

theorem compareParts?_number (m n : Nat) (p q : List KeyPart) :
    compareParts? (.number m :: p) (.number n :: q) =
      if m = n then compareParts? p q else some (Ord.compare m n) := by
  simp only [compareParts?, KeyPart.number.injEq]
  rfl

theorem then_of_ne_eq {o o' : Ordering} (h : o ≠ .eq) : o.then o' = o := by
  cases o with
  | eq => exact absurd rfl h
  | lt => rfl
  | gt => rfl

theorem compareParts?_tailParts (p q : List (Nat × Text)) :
    compareParts? (tailParts p) (tailParts q) = some (compareTails p q) := by
  induction p generalizing q with
  | nil => cases q <;> rfl
  | cons e p ih =>
    cases q with
    | nil => rfl
    | cons e' q =>
      obtain ⟨m, s⟩ := e
      obtain ⟨n, t⟩ := e'
      rw [tailParts_cons, tailParts_cons, compareParts?_number,
        compareParts?_text, ih, compareTails]
      by_cases hmn : m = n
      · rw [if_pos hmn, Nat.compare_eq_eq.mpr hmn]
        by_cases hst : s = t
        · rw [if_pos hst, compareText_eq_iff.mpr hst]
          rfl
        · rw [if_neg hst]
          exact congrArg some (then_of_ne_eq fun h => hst (compareText_eq_iff.mp h)).symm
      · have hne : Ord.compare m n ≠ .eq := fun h => hmn (Nat.compare_eq_eq.mp h)
        rw [if_neg hmn, then_of_ne_eq hne, then_of_ne_eq hne]

/-- **A text never stands against a number**, and the lists compare as the keys do. -/
theorem compareParts?_parts (a b : NaturalKey) :
    compareParts? a.parts b.parts = some (a.compare b) := by
  obtain ⟨s, p⟩ := a
  obtain ⟨t, q⟩ := b
  rw [parts, parts, compareParts?_text, compareParts?_tailParts, compare]
  by_cases hst : s = t
  · rw [if_pos hst, compareText_eq_iff.mpr hst]
    rfl
  · rw [if_neg hst, then_of_ne_eq fun h => hst (compareText_eq_iff.mp h)]

end NaturalKey

/-! ## 4. Sorting by keys -/

section Sorting

variable {α : Type} {key : α → NaturalKey} {l l' sorted sorted' : List α}

/-- The list in the order of its keys: the same elements, and those of one key in the order in
which they came. -/
structure IsSortedByKey (key : α → NaturalKey) (l sorted : List α) : Prop where
  perm : sorted.Perm l
  ordered : sorted.Pairwise fun a b => (key a).le (key b) = true
  stable : ∀ k, sorted.filter (key · = k) = l.filter (key · = k)

theorem isSortedByKey_sortStable (key : α → NaturalKey) (l : List α) :
    IsSortedByKey key l (sortStable (fun a b => (key a).le (key b)) l) := by
  have total : ∀ a b : α, (key a).le (key b) = true ∨ (key b).le (key a) = true :=
    fun a b => NaturalKey.le_total _ _
  have trans : ∀ a b c : α, (key a).le (key b) = true → (key b).le (key c) = true →
      (key a).le (key c) = true := fun a b c => NaturalKey.le_trans _ _ _
  refine ⟨sortStable_perm _ l, pairwise_sortStable total trans l, fun k => ?_⟩
  rw [filter_sortStable total trans]
  -- elements of one key may stand in any order
  refine sortStable_of_pairwise (List.pairwise_iff_forall_sublist.mpr fun {a b} hab => ?_)
  have hkey : ∀ c ∈ [a, b], key c = k := fun c hc => by
    simpa using (List.mem_filter.mp (hab.subset hc)).2
  rw [hkey a (by simp), hkey b (by simp)]
  exact (NaturalKey.le_total k k).elim id id

/-- **The order of the keys and the order in which elements came settle the list.** -/
theorem IsSortedByKey.unique (h : IsSortedByKey key l sorted) (h' : IsSortedByKey key l sorted') :
    sorted = sorted' := by
  have hperm := h.perm.trans h'.perm.symm
  have hstable : ∀ k, sorted.filter (key · = k) = sorted'.filter (key · = k) :=
    fun k => (h.stable k).trans (h'.stable k).symm
  have hs := h.ordered
  have hs' := h'.ordered
  clear h h'
  induction sorted generalizing sorted' with
  | nil => exact (List.nil_perm.mp hperm).symm
  | cons a r ih =>
    cases sorted' with
    | nil => exact absurd (List.perm_nil.mp hperm) (List.cons_ne_nil a r)
    | cons b r' =>
      have hkey : key a = key b := by
        have hab : (key a).le (key b) = true := by
          rcases List.mem_cons.mp (hperm.mem_iff.mpr List.mem_cons_self) with rfl | hb
          · exact (NaturalKey.le_total _ _).elim id id
          · exact (List.pairwise_cons.mp hs).1 b hb
        have hba : (key b).le (key a) = true := by
          rcases List.mem_cons.mp (hperm.mem_iff.mp List.mem_cons_self) with rfl | ha
          · exact (NaturalKey.le_total _ _).elim id id
          · exact (List.pairwise_cons.mp hs').1 a ha
        exact NaturalKey.eq_of_le_of_le hab hba
      have hclass := hstable (key a)
      rw [List.filter_cons_of_pos (by simp), List.filter_cons_of_pos (by simp [hkey])] at hclass
      obtain rfl := (List.cons.inj hclass).1
      congr 1
      refine ih hperm.cons_inv (fun k => ?_)
        (List.pairwise_cons.mp hs).2 (List.pairwise_cons.mp hs').2
      have hk := hstable k
      by_cases ha : key a = k
      · rw [List.filter_cons_of_pos (by simpa), List.filter_cons_of_pos (by simpa)] at hk
        exact (List.cons.inj hk).2
      · rwa [List.filter_cons_of_neg (by simpa), List.filter_cons_of_neg (by simpa)] at hk

/-- Where no key comes twice, the order in which elements come does not matter. -/
theorem IsSortedByKey.of_perm (hne : l.Pairwise fun a b => key a ≠ key b) (hperm : l.Perm l')
    (h : IsSortedByKey key l' sorted) : IsSortedByKey key l sorted := by
  refine ⟨h.perm.trans hperm.symm, h.ordered, fun k => (h.stable k).trans ?_⟩
  -- at most one element has the key
  have hfilter := (hperm.filter (key · = k)).symm
  have hshort : (l.filter (key · = k)).Pairwise fun _ _ => False := by
    refine List.Pairwise.imp_of_mem (fun {a b} ha hb hab => hab ?_) (hne.filter _)
    have hka := (List.mem_filter.mp ha).2
    have hkb := (List.mem_filter.mp hb).2
    simp only [decide_eq_true_eq] at hka hkb
    rw [hka, hkb]
  match hl : l.filter (key · = k), hshort with
  | [], _ =>
    rw [hl] at hfilter
    exact List.perm_nil.mp hfilter
  | [a], _ =>
    rw [hl] at hfilter
    exact List.perm_singleton.mp hfilter
  | a :: b :: r, h => exact ((List.pairwise_cons.mp h).1 b List.mem_cons_self).elim

end Sorting

/-! ## 5. Output lists -/

/-- What an entry of an output list is sorted by; an entry without a name counts as one with the
empty name. -/
def ListEntry.key (e : ListEntry) : NaturalKey := NaturalKey.of (e.name.getD [])

/-- **Output lists are sorted naturally.**  Every name can be cut at its digits, and its key is
that of the pieces: texts and numbers in turn, with a text at both ends.  So two keys always
compare, names are put in order by a total preorder, and the sorted list is the one list of the
same entries in this order in which entries of one key stand as they came. -/
theorem names_sorted_naturally :
    (∀ name, (∃ pieces, IsCutAtDigits name pieces) ∧
      (∀ pieces, IsCutAtDigits name pieces →
        (NaturalKey.of name).parts = pieces.mapIdx KeyPart.ofPiece) ∧
      Alternates (NaturalKey.of name).parts) ∧
    (∀ a b : Text, compareParts? (NaturalKey.of a).parts (NaturalKey.of b).parts =
      some ((NaturalKey.of a).compare (NaturalKey.of b))) ∧
    ((∀ a b : Text, (NaturalKey.of a).le (NaturalKey.of b) = true ∨
        (NaturalKey.of b).le (NaturalKey.of a) = true) ∧
      ∀ a b c : Text, (NaturalKey.of a).le (NaturalKey.of b) = true →
        (NaturalKey.of b).le (NaturalKey.of c) = true →
          (NaturalKey.of a).le (NaturalKey.of c) = true) ∧
    (∀ entries sorted, IsSortedByKey ListEntry.key entries sorted ↔ sorted = sortEntries entries) ∧
    ∀ entries entries' : List ListEntry, entries.Perm entries' →
      (entries.Pairwise fun e e' => e.key ≠ e'.key) → sortEntries entries = sortEntries entries' := by
  have hsorted : ∀ entries, IsSortedByKey ListEntry.key entries (sortEntries entries) :=
    fun entries => isSortedByKey_sortStable ListEntry.key entries
  refine ⟨fun name => ⟨⟨_, isCutAtDigits_foldr name⟩, fun _ h => NaturalKey.parts_of h,
    NaturalKey.alternates_parts name⟩, fun a b => NaturalKey.compareParts?_parts _ _,
    ⟨fun a b => NaturalKey.le_total _ _, fun a b c => NaturalKey.le_trans _ _ _⟩,
    fun entries sorted => ⟨fun h => h.unique (hsorted entries), fun h => h ▸ hsorted entries⟩,
    fun entries entries' hperm hne => ?_⟩
  exact (hsorted entries).unique ((hsorted entries').of_perm hne hperm)

end CiteMarkup
