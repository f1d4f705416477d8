import CiteMarkup.Proofs.Chain.Rereading
import Mathlib.Data.List.TakeWhile
/-!
# Entries as they are written

A segment of a chain is a mark and a value, with blanks around them: the mark is a key with its
sign, or nothing (`exists_parts`).  A segment that is put together in this way is cut as it has
been put together (`ofSegment_parts`), whatever the value is.  So an entry can be written with
another value in the place of its own, or by itself (`Entry.written`), and it opens and closes the
same brackets as its segment did (`nestingAfter_written`).
-/

namespace CiteMarkup

/-! ## 1. The parts of a segment -/

section Parts

variable {key lead mark trail v w : Text} {c : Char}

/-- What stands in front of a value: nothing, if the value has no sign that counts, or a key and
its sign. -/
inductive IsMark : (key mark v : Text) → Prop
  | bare {v : Text} (hv : equalsSign? v = none) : IsMark [] [] v
  | keyed {key front back v : Text} (hkey : key.Trimmed) (hdepth : depthAfter key = some 0)
      (hfront : ∀ c ∈ front, isBlank c = true) (hback : ∀ c ∈ back, isBlank c = true)
      (hhead : key = [] → front = []) : IsMark key (key ++ (front ++ '=' :: back)) v

/-- A text without blanks around it does not begin with some. -/
theorem eq_nil_of_trimmed (hw : ∀ c ∈ w, isBlank c = true) (h : Text.Trimmed (w ++ v)) :
    w = [] := by
  cases w with
  | nil => rfl
  | cons c r =>
    have hno := h.head c rfl
    rw [hw c List.mem_cons_self] at hno
    cases hno

/-- **A segment is a mark and a value**, with blanks around them. -/
theorem exists_parts (segment : Text) : ∃ lead mark trail : Text,
    segment = lead ++ (mark ++ ((Assignment.ofSegment segment).value ++ trail)) ∧
      (∀ c ∈ lead, isBlank c = true) ∧ (∀ c ∈ trail, isBlank c = true) ∧
      IsMark (Assignment.ofSegment segment).key mark (Assignment.ofSegment segment).value ∧
      (Assignment.ofSegment segment).offset = lead.length + mark.length := by
  obtain ⟨lead, trail, hsegment, hlength, hlead, htrail⟩ := Text.exists_trim segment
  cases hsign : equalsSign? segment.trim with
  | none =>
    refine ⟨lead, [], trail, ?_, hlead, htrail, ?_, ?_⟩
    · simp only [Assignment.ofSegment, hsign]
      rwa [List.nil_append, ← List.append_assoc]
    · simp only [Assignment.ofSegment, hsign]
      exact .bare hsign
    · simp only [Assignment.ofSegment, hsign, List.length_nil, Nat.add_zero, hlength]
  | some e =>
    obtain ⟨u, r, hbody, rfl, hu⟩ := equalsSign?_eq_some.mp hsign
    obtain ⟨front, front', hkey, -, hfront, hfront'⟩ := Text.exists_trim u
    obtain ⟨back, back', hvalue, hback', hback, hback''⟩ := Text.exists_trim r
    have htake : segment.trim.take u.length = u := by rw [hbody, List.take_left]
    have hdrop : segment.trim.drop (u.length + 1) = r := by
      rw [hbody, List.drop_length_add_append]
      rfl
    -- the body begins with no blank, so the key does not either
    have htrimmed := Text.trimmed_trim segment
    have hbegin : front = [] := by
      rw [hbody, hkey, List.append_assoc, List.append_assoc] at htrimmed
      exact eq_nil_of_trimmed hfront htrimmed
    subst hbegin
    rw [List.nil_append] at hkey
    have hdepth : depthAfter u.trim = some 0 := by
      rw [← depthAfter_append (isLabel_blank hfront') u.trim, ← hkey, hu]
    have hnil : u.trim = [] → front' = [] := by
      intro hnil
      rw [hbody, hkey, hnil, List.nil_append] at htrimmed
      exact eq_nil_of_trimmed hfront' htrimmed
    refine ⟨lead, u.trim ++ (front' ++ '=' :: back), back' ++ trail, ?_, hlead, ?_, ?_, ?_⟩
    · simp only [Assignment.ofSegment, hsign, hdrop]
      conv_lhs => rw [hsegment, hbody, hkey, hvalue]
      simp
    · intro c hc
      rcases List.mem_append.mp hc with hc | hc
      · exact hback'' c hc
      · exact htrail c hc
    · simp only [Assignment.ofSegment, hsign, htake]
      exact .keyed (Text.trimmed_trim u) hdepth hfront' hback hnil
    · have hlengths := congrArg List.length hkey
      rw [List.length_append] at hlengths
      simp only [Assignment.ofSegment, hsign, hdrop, List.length_append, List.length_cons]
      omega

theorem IsMark.trimmed (h : IsMark key mark v) (hv : IsValue v) :
    Text.Trimmed (mark ++ v) ∧ mark ++ v ≠ [] := by
  cases h with
  | bare hsign => exact ⟨hv.trimmed, hv.nonempty⟩
  | @keyed _ front back _ hkey hdepth hfront hback hhead =>
    refine ⟨⟨fun c hc => ?_, ?_⟩, by simp⟩
    · cases hnil : key with
      | nil =>
        rw [hnil, hhead hnil] at hc
        obtain rfl : '=' = c := by simpa using hc
        decide
      | cons d r =>
        rw [hnil] at hc
        exact hkey.head c (by rw [hnil]; exact hc)
    · rw [List.getLast?_append_of_ne_nil _ hv.nonempty]
      exact hv.trimmed.last

/-- Blanks around a text are trimmed. -/
theorem trim_between (lead trail : Text) (hlead : ∀ c ∈ lead, isBlank c = true)
    (htrail : ∀ c ∈ trail, isBlank c = true) (hw : w.Trimmed) (hne : w ≠ []) :
    Text.trim (lead ++ (w ++ trail)) = w ∧
      Text.leadingBlanks (lead ++ (w ++ trail)) = lead.length := by
  obtain ⟨c, r, rfl⟩ := List.exists_cons_of_ne_nil hne
  have hc : isBlank c = false := hw.head c rfl
  have hstart : Text.trimStart (lead ++ (c :: r ++ trail)) = c :: r ++ trail := by
    rw [Text.trimStart, List.dropWhile_append_of_pos hlead]
    exact List.dropWhile_cons_of_neg (by simp [hc])
  constructor
  · have hreverse : Text.trimStart (c :: r).reverse = (c :: r).reverse :=
      Text.trimStart_eq_self (by rw [List.head?_reverse]; exact hw.last)
    rw [Text.trimStart] at hreverse
    rw [Text.trim, hstart, Text.trimEnd, List.reverse_append,
      List.dropWhile_append_of_pos fun d hd => htrail d (List.mem_reverse.mp hd), hreverse,
      List.reverse_reverse]
  · have hstop : (c :: r ++ trail).takeWhile isBlank = [] :=
      List.takeWhile_cons_of_neg (by simp [hc])
    rw [Text.leadingBlanks, List.takeWhile_append_of_pos hlead, hstop, List.append_nil]

theorem IsMark.depth (h : IsMark key mark v) : depthAfter key = some 0 := by
  cases h with
  | bare hsign => rfl
  | keyed hkey hdepth hfront hback hhead => exact hdepth

/-- **A segment is cut as it has been put together.** -/
theorem ofSegment_parts (hlead : ∀ c ∈ lead, isBlank c = true)
    (htrail : ∀ c ∈ trail, isBlank c = true) (hmark : IsMark key mark v) (hv : IsValue v) :
    (Assignment.ofSegment (lead ++ (mark ++ (v ++ trail)))).key = key ∧
      (Assignment.ofSegment (lead ++ (mark ++ (v ++ trail)))).value = v ∧
      (Assignment.ofSegment (lead ++ (mark ++ (v ++ trail)))).offset =
        lead.length + mark.length := by
  obtain ⟨htrimmed, hne⟩ := hmark.trimmed hv
  obtain ⟨htrim, hblanks⟩ := trim_between lead trail hlead htrail htrimmed hne
  rw [List.append_assoc] at htrim hblanks
  simp only [Assignment.ofSegment, htrim, hblanks]
  cases hmark with
  | bare hsign => simp [hsign]
  | @keyed _ front back _ hkey hdepth hfront hback hhead =>
    have hshape : key ++ (front ++ '=' :: back) ++ v = (key ++ front) ++ '=' :: (back ++ v) := by
      simp
    have hsign : equalsSign? ((key ++ front) ++ '=' :: (back ++ v)) = some (key ++ front).length :=
      equalsSign?_append (by rw [depthAfter_append (isLabel_blank hfront), hdepth]) _
    have hdrop : ((key ++ front) ++ '=' :: (back ++ v)).drop ((key ++ front).length + 1) =
        back ++ v := by
      rw [List.drop_length_add_append]
      rfl
    obtain ⟨hvalue, hback'⟩ := trim_between back [] hback (by simp) hv.trimmed hv.nonempty
    rw [List.append_nil] at hvalue hback'
    have hname : Text.trim (key ++ front) = key := by
      cases hnil : key with
      | nil => rw [hhead hnil]; rfl
      | cons c r =>
        have hbetween := trim_between [] front (by simp) hfront (hnil ▸ hkey) (by simp)
        exact hbetween.1
    rw [hshape, hsign]
    refine ⟨?_, ?_, ?_⟩
    · exact (congrArg Text.trim List.take_left).trans hname
    · exact (congrArg Text.trim hdrop).trans hvalue
    · simp only [hdrop, hback']
      simp only [List.length_append, List.length_cons]
      omega

/-- What a parameter is read as, unless it is dropped, and what has been counted behind it. -/
def readSegment (s : Tally) (segment : Text) : Option Entry × Tally :=
  let a := Assignment.ofSegment segment
  let counted := s.count (KeyMeaning.of a.key)
  if segment.isBlankOnly then (none, s)
  else if a.value.isEmpty then (none, counted.2.2)
  else (some ⟨Text.nonempty? a.key, a.value, counted.1, max counted.2.1 1⟩,
    counted.2.2.keep counted.1 counted.2.1)

/-- **Segments are read one by one.** -/
theorem readEntries_cons (s : Tally) (segment : Text) (rest : List Text) :
    readEntries s (segment :: rest) =
      (readSegment s segment).1.toList ++ readEntries (readSegment s segment).2 rest := by
  rw [readEntries, readSegment]
  split
  · rfl
  · simp only
    split <;> rfl

/-- A value is read with its key. -/
theorem readSegment_of_value {s : Tally} {segment : Text}
    (hv : (Assignment.ofSegment segment).value ≠ []) :
    readSegment s segment = (some ⟨Text.nonempty? (Assignment.ofSegment segment).key,
      (Assignment.ofSegment segment).value,
      (s.count (KeyMeaning.of (Assignment.ofSegment segment).key)).1,
      max (s.count (KeyMeaning.of (Assignment.ofSegment segment).key)).2.1 1⟩,
      (s.count (KeyMeaning.of (Assignment.ofSegment segment).key)).2.2.keep
        (s.count (KeyMeaning.of (Assignment.ofSegment segment).key)).1
        (s.count (KeyMeaning.of (Assignment.ofSegment segment).key)).2.1) := by
  have hempty : (Assignment.ofSegment segment).value.isEmpty = false :=
    List.isEmpty_eq_false_iff.mpr hv
  have hblank : segment.isBlankOnly = false := by
    rw [Bool.eq_false_iff]
    intro hblank
    have htrim : segment.trim = [] := by
      have hstart : segment.trimStart = [] :=
        List.dropWhile_eq_nil_iff.mpr fun c hc => List.all_eq_true.mp hblank c hc
      rw [Text.trim, hstart]
      rfl
    refine hv ?_
    simp only [Assignment.ofSegment, htrim]
    rfl
  simp only [readSegment, hblank, hempty, Bool.false_eq_true, if_false]

/-- What is read of a segment has its value. -/
theorem value_of_readSegment {s : Tally} {segment : Text} {e : Entry}
    (h : (readSegment s segment).1 = some e) :
    (Assignment.ofSegment segment).value ≠ [] ∧
      e = ⟨Text.nonempty? (Assignment.ofSegment segment).key,
      (Assignment.ofSegment segment).value,
      (s.count (KeyMeaning.of (Assignment.ofSegment segment).key)).1,
      max (s.count (KeyMeaning.of (Assignment.ofSegment segment).key)).2.1 1⟩ := by
  have hv : (Assignment.ofSegment segment).value ≠ [] := by
    intro hnil
    simp only [readSegment, hnil] at h
    split at h
    · cases h
    · cases h
  rw [readSegment_of_value hv] at h
  exact ⟨hv, (Option.some.inj h).symm⟩

end Parts

/-! ## 2. Entries -/

section Entries

variable {s : Tally} {segments : List Text} {e : Entry} {key lead mark trail v : Text}

/-- An entry as a parameter of its own. -/
def Entry.written (e : Entry) : Text :=
  match e.key with
  | some k => assignment k e.value
  | none => e.value

/-- The sign behind the key of an entry counts. -/
def Entry.HasSign (e : Entry) : Prop := ∀ k ∈ e.key, depthAfter k = some 0

instance (e : Entry) : Decidable e.HasSign := inferInstanceAs (Decidable (∀ k ∈ e.key, _))

/-- **A written entry opens and closes the brackets of its segment.** -/
theorem nestingAfter_parts (hlead : ∀ c ∈ lead, isBlank c = true)
    (htrail : ∀ c ∈ trail, isBlank c = true) (hmark : IsMark key mark v) (role : Role)
    (index : Nat) :
    nestingAfter (lead ++ (mark ++ (v ++ trail))) =
      nestingAfter (Entry.written ⟨Text.nonempty? key, v, role, index⟩) := by
  rw [← List.append_assoc mark,
    nestingAfter_between (isLabel_blank hlead).inert (isLabel_blank htrail).inert]
  cases hmark with
  | bare hsign => rfl
  | @keyed _ front back _ hkey hdepth hfront hback hhead =>
    have hinert : IsInert (front ++ '=' :: back) := by
      refine (isLabel_blank hfront).inert.append fun c hc => ?_
      rcases List.mem_cons.mp hc with rfl | hc
      · decide
      · exact (isLabel_blank hback).inert c hc
    rw [List.append_assoc, nestingAfter_append hinert (by simp)]
    by_cases hnil : key = []
    · subst hnil
      rfl
    · rw [nonempty?_of_ne hnil]
      have happend := nestingAfter_append (w := ['=']) (fun c hc => by
        obtain rfl := List.mem_singleton.mp hc
        decide) (by simp) key v
      exact happend.symm

/-- An entry of a segment, as it is written and in its segment. -/
theorem nestingAfter_written (segment : Text) (role : Role) (index : Nat) :
    nestingAfter (Entry.written ⟨Text.nonempty? (Assignment.ofSegment segment).key,
      (Assignment.ofSegment segment).value, role, index⟩) = nestingAfter segment ∧
      Entry.HasSign ⟨Text.nonempty? (Assignment.ofSegment segment).key,
        (Assignment.ofSegment segment).value, role, index⟩ := by
  obtain ⟨lead, mark, trail, hsegment, hlead, htrail, hmark, -⟩ := exists_parts segment
  constructor
  · conv_rhs => rw [hsegment]
    exact (nestingAfter_parts hlead htrail hmark role index).symm
  · intro k hk
    exact eq_of_nonempty? hk ▸ hmark.depth

/-- What is open behind the entries of segments, one after the other. -/
theorem sublist_nestingAfter (s : Tally) (segments : List Text) :
    ((readEntries s segments).map fun e => nestingAfter e.written).Sublist
      (segments.map nestingAfter) ∧ ∀ e ∈ readEntries s segments, e.HasSign := by
  induction segments generalizing s with
  | nil => simp [readEntries]
  | cons segment rest ih =>
    obtain ⟨hsub, hsign⟩ := ih (readSegment s segment).2
    rw [readEntries_cons, List.map_cons]
    cases hread : (readSegment s segment).1 with
    | none => exact ⟨hsub.cons _, hsign⟩
    | some e =>
      obtain ⟨-, rfl⟩ := value_of_readSegment hread
      obtain ⟨hnesting, hfirst⟩ := nestingAfter_written segment
        (s.count (KeyMeaning.of (Assignment.ofSegment segment).key)).1
        (max (s.count (KeyMeaning.of (Assignment.ofSegment segment).key)).2.1 1)
      rw [Option.toList_some, List.singleton_append, List.map_cons, hnesting]
      exact ⟨hsub.cons_cons _, List.forall_mem_cons.mpr ⟨hfirst, hsign⟩⟩

/-- Whether texts are parts that are found again depends on what they leave open. -/
theorem isParted_iff {parts : List Text} : IsParted parts ↔
    (∀ x ∈ parts.map nestingAfter, x.isSome = true) ∧
      (parts.map nestingAfter).Pairwise fun x _ => x = some {} := by
  constructor
  · intro h
    refine ⟨List.forall_mem_map.mpr h.piece, ?_⟩
    exact List.pairwise_map.mpr (h.closed.imp fun hu => isClosed_iff.mp hu)
  · rintro ⟨hpiece, hclosed⟩
    refine ⟨fun u hu => hpiece _ (List.mem_map_of_mem hu), ?_⟩
    exact (List.pairwise_map.mp hclosed).imp fun hu => isClosed_iff.mpr hu

theorem IsParted.of_sublist {parts parts' : List Text} (h : IsParted parts')
    (hsub : (parts.map nestingAfter).Sublist (parts'.map nestingAfter)) : IsParted parts := by
  rw [isParted_iff] at *
  exact ⟨fun x hx => h.1 x (hsub.mem hx), h.2.sublist hsub⟩

end Entries

/-! ## 3. Entries of a parameter text -/

section Placed

/-- **The entries of a parameter text** are those of segments that can be told apart. -/
theorem exists_segments (t : Text) : ∃ segments, IsParted segments ∧
    (placedEntries t).map (·.toEntry) = readEntries {} segments := by
  unfold placedEntries
  split
  · split
    · exact ⟨[], ⟨by simp, .nil⟩, rfl⟩
    · exact ⟨_, (isParted_segments _).2, map_toEntry_entriesFrom _ _ _⟩
  · split
    · exact ⟨[], ⟨by simp, .nil⟩, rfl⟩
    · exact ⟨_, (isParted_segments _).2, map_toEntry_entriesFrom _ _ _⟩

/-- The entries of a parameter text can be written by themselves, in their order. -/
theorem isParted_written (t : Text) :
    IsParted (((placedEntries t).map (·.toEntry)).map Entry.written) ∧
      ∀ e ∈ (placedEntries t).map (·.toEntry), e.IsRead ∧ e.HasSign := by
  obtain ⟨segments, hparted, heq⟩ := exists_segments t
  obtain ⟨hsub, hsign⟩ := sublist_nestingAfter {} segments
  rw [heq]
  refine ⟨hparted.of_sublist ?_, fun e he => ⟨isRead_of_mem_readEntries he, hsign e he⟩⟩
  rw [List.map_map]
  exact hsub

end Placed

/-! ## 4. Chains that are written -/

section Chains

variable {position : Entry → Nat} {rename : Entry → Text → Text} {es : List Entry}
  {s s' : Tally} {digits key v : Text} {role : Role} {index : Nat}

/-- A value is read under the key that it is written with, without the blanks behind that. -/
theorem readEntries_keyed (hhead : ∀ c ∈ key.head?, isBlank c = false) (hne : key ≠ [])
    (hdepth : depthAfter key = some 0) (hv : IsValue v)
    (hcount : s.count (KeyMeaning.of key.trim) = (role, index, s')) (rest : List Text) :
    readEntries s (assignment key v :: rest) =
      ⟨some key.trim, v, role, max index 1⟩ :: readEntries (s'.keep role index) rest := by
  obtain ⟨front, back, hkey, -, hfront, hback⟩ := Text.exists_trim key
  have hbegin : front = [] := by
    cases front with
    | nil => rfl
    | cons c r =>
      have hno := hhead c (by rw [hkey]; rfl)
      rw [hfront c List.mem_cons_self] at hno
      cases hno
  subst hbegin
  rw [List.nil_append] at hkey
  have hnil : key.trim ≠ [] := by
    intro hnil
    rw [hnil, List.nil_append] at hkey
    obtain ⟨c, r, hcons⟩ := List.exists_cons_of_ne_nil hne
    have hno := hhead c (by rw [hcons]; rfl)
    rw [hback c (by rw [← hkey, hcons]; exact List.mem_cons_self)] at hno
    cases hno
  have hdepth' : depthAfter key.trim = some 0 := by
    rw [← depthAfter_append (isLabel_blank hback), ← hkey, hdepth]
  have hmark : IsMark key.trim (key.trim ++ (back ++ ['='])) v :=
    .keyed (Text.trimmed_trim key) hdepth' hback (by simp) fun h => absurd h hnil
  have hshape : assignment key v = [] ++ (key.trim ++ (back ++ ['=']) ++ (v ++ [])) := by
    conv_lhs => rw [assignment, hkey]
    simp
  have hnone : ∀ c ∈ ([] : Text), isBlank c = true := by simp
  obtain ⟨hk, hvalue, -⟩ := ofSegment_parts hnone hnone hmark hv
  rw [← hshape] at hk hvalue
  rw [readEntries_cons, readSegment_of_value (by rw [hvalue]; exact hv.nonempty),
    hk, hvalue, hcount,
    nonempty?_of_ne hnil]
  rfl

theorem isInert_sign : IsInert ['='] := by
  intro c hc
  obtain rfl := List.mem_singleton.mp hc
  decide

/-- Digits at the end of a key open and close nothing. -/
theorem nestingAfter_indexed (hdigits : digits.all isAsciiDigit = true) (u v : Text) :
    nestingAfter (assignment (u ++ digits) v) = nestingAfter (assignment u v) := by
  have hshape : assignment (u ++ digits) v = u ++ ((digits ++ ['=']) ++ v) := by simp [assignment]
  have hbare : assignment u v = u ++ (['='] ++ v) := rfl
  rw [hshape, hbare, nestingAfter_append ((isLabel_digits hdigits).inert.append isInert_sign)
    (by simp), nestingAfter_append isInert_sign (by simp)]

/-- A label in front of a value opens and closes nothing. -/
theorem nestingAfter_label (hkey : IsLabel key) (v : Text) :
    nestingAfter (assignment key v) = nestingAfter v := by
  have hbetween := nestingAfter_between (hkey.inert.append isInert_sign)
    (fun _ h => absurd h List.not_mem_nil) v
  rw [List.append_nil, List.append_assoc] at hbetween
  exact hbetween

theorem nestingAfter_nameParam (v : Text) (i : Nat) (count : Int) :
    nestingAfter (nameParam v i count) = nestingAfter v := by
  unfold nameParam
  split
  · rfl
  · exact nestingAfter_label (isLabel_digits (all_ofNat i)) v

variable (position) in
/-- **The parameters of a chain open and close what its entries do**, if new keys do what the old
ones did. -/
theorem map_nestingAfter_chainParamsFrom (hkeyless : ∀ e ∈ es, e.key = none → e.role = .name)
    (hrename : ∀ e ∈ es, ∀ k ∈ e.key, nestingAfter (assignment (rename e k) e.value) =
      nestingAfter (assignment k e.value)) (count : Nat) :
    (chainParamsFrom position rename count es).map nestingAfter =
      (es.map Entry.written).map nestingAfter := by
  induction es generalizing count with
  | nil => rfl
  | cons e es ih =>
    have hrest := ih (fun x hx => hkeyless x (List.mem_cons_of_mem _ hx))
      fun x hx => hrename x (List.mem_cons_of_mem _ hx)
    have he := hrename e List.mem_cons_self
    cases hk : e.key with
    | none =>
      have hname : e.isName = true := decide_eq_true (hkeyless e List.mem_cons_self hk)
      simp only [chainParamsFrom, hk, hname, if_true, List.map_cons, nestingAfter_nameParam, hrest,
        Entry.written]
    | some k =>
      simp only [chainParamsFrom, hk, List.map_cons, he k hk, hrest, Entry.written]

variable (position rename) in
theorem ne_nil_of_mem_chainParamsFrom (hvalue : ∀ e ∈ es, e.value ≠ []) (count : Nat) :
    ∀ p ∈ chainParamsFrom position rename count es, p ≠ [] := by
  induction es generalizing count with
  | nil => simp [chainParamsFrom]
  | cons e es ih =>
    have hrest := ih fun x hx => hvalue x (List.mem_cons_of_mem _ hx)
    have he := hvalue e List.mem_cons_self
    rw [chainParamsFrom]
    split
    · exact List.forall_mem_cons.mpr ⟨by simp [assignment], hrest _⟩
    · split
      · refine List.forall_mem_cons.mpr ⟨?_, hrest _⟩
        unfold nameParam
        split
        · exact he
        · simp [assignment]
      · split
        · exact List.forall_mem_cons.mpr ⟨by simp [assignment], hrest _⟩
        · exact hrest _

/-- **A chain of entries is read back parameter by parameter**, if the entries can be told apart
where they are written by themselves. -/
theorem placedEntries_chain (hne : es ≠ []) (hread : ∀ e ∈ es, e.IsRead)
    (hparted : IsParted (es.map Entry.written))
    (hrename : ∀ e ∈ es, ∀ k ∈ e.key, nestingAfter (assignment (rename e k) e.value) =
      nestingAfter (assignment k e.value)) :
    (placedEntries (Text.join ['|'] (chainParamsFrom position rename 0 es))).map (·.toEntry) =
      readEntries {} (chainParamsFrom position rename 0 es) := by
  have hnesting := map_nestingAfter_chainParamsFrom position
    (fun e he => (hread e he).keyless) hrename 0
  have hnil := ne_nil_of_mem_chainParamsFrom position rename
    (fun e he => (hread e he).value.nonempty) 0
  refine placedEntries_join ?_ (fun p hp => hnil p (List.mem_of_mem_head? hp))
    (hparted.of_sublist (hnesting ▸ List.Sublist.refl _))
  intro hempty
  rw [hempty] at hnesting
  exact hne (by simpa using hnesting.symm)

theorem length_cutApart_eq (lengths : List Nat) (t : Text) :
    (cutApart lengths t).length = lengths.length := by
  induction lengths generalizing t with
  | nil => rfl
  | cons n ns ih => rw [cutApart, List.length_cons, ih, List.length_cons]

theorem length_readEntries_le (s : Tally) (segments : List Text) :
    (readEntries s segments).length ≤ segments.length := by
  induction segments generalizing s with
  | nil => exact Nat.le_refl _
  | cons segment rest ih =>
    have hrest := ih (readSegment s segment).2
    rw [readEntries_cons, List.length_append, List.length_cons]
    cases (readSegment s segment).1 with
    | none =>
      simp only [Option.toList_none, List.length_nil]
      omega
    | some e =>
      simp only [Option.toList_some, List.length_singleton]
      omega

/-- A parameter text has no more entries than segments. -/
theorem length_placedEntries_le (t : Text) :
    (placedEntries t).length ≤ (segmentLengths t).length := by
  have hread : ∀ (offset : Nat) (r : Text),
      (entriesFrom offset {} (cutApart (segmentLengths r) r)).length ≤
        (segmentLengths r).length := by
    intro offset r
    have hle := length_readEntries_le {} (cutApart (segmentLengths r) r)
    rwa [length_cutApart_eq, ← map_toEntry_entriesFrom _ offset, List.length_map] at hle
  unfold placedEntries
  split
  · rename_i r
    have hbar : segmentLengths ('|' :: r) = 0 :: segmentLengths r := by
      rw [segmentLengths, pieceLengthsFrom, (isNeutral_nesting (c := '|') (by decide)).bind_eq_none]
      rfl
    rw [hbar, List.length_cons]
    split
    · exact Nat.zero_le _
    · exact Nat.le_succ_of_le (hread 1 r)
  · split
    · exact Nat.zero_le _
    · exact hread 0 t

/-- **Entries that are read one by one can be told apart** where they are written by themselves. -/
theorem isParted_of_chain (hread : ∀ e ∈ es, e.IsRead) (hpiece : ∀ e ∈ es, IsPiece e.written)
    (hrename : ∀ e ∈ es, ∀ k ∈ e.key, nestingAfter (assignment (rename e k) e.value) =
      nestingAfter (assignment k e.value))
    (h : es.length ≤
      (placedEntries (Text.join ['|'] (chainParamsFrom position rename 0 es))).length) :
    IsParted (es.map Entry.written) := by
  have hnesting := map_nestingAfter_chainParamsFrom position
    (fun e he => (hread e he).keyless) hrename 0
  generalize chainParamsFrom position rename 0 es = params at h hnesting
  have hlength : params.length = es.length := by simpa using congrArg List.length hnesting
  have hparams : ∀ p ∈ params, IsPiece p := by
    intro p hp
    have hmem : nestingAfter p ∈ (es.map Entry.written).map nestingAfter :=
      hnesting ▸ List.mem_map_of_mem hp
    rw [List.map_map] at hmem
    obtain ⟨e, he, heq⟩ := List.mem_map.mp hmem
    rw [IsPiece, ← heq]
    exact hpiece e he
  have hparted := isParted_of_length hparams
    (Nat.le_trans (hlength ▸ h) (length_placedEntries_le _))
  exact hparted.of_sublist (hnesting ▸ List.Sublist.refl _)

end Chains

end CiteMarkup
