import CiteMarkup.Proofs.Chain.Bindings
import CiteMarkup.Proofs.Chain.Places
import CiteMarkup.Proofs.Edit.Apply
/-!
# Names that are replaced in place

A name of a chain is replaced by putting another value where its own stands.  The segment keeps its
key and the blanks in it (`readSegment_withValue`), so the chain is read as before, but for the
names (`saysWith_withNamesIn`).  The other segments are found again, since a value that fits opens
and closes nothing (`IsParted.of_forall₂`), and carrying out the edits of the names leads to the
segments put together again (`spliced_names`).  So a parameter text that is edited in this way says
what it has said, with the names that were put into it (`saysWith_placedEdits`).
-/

namespace CiteMarkup

/-! ## 1. A segment with another value -/

/-- A segment with another value in the place of its own. -/
def withValue (segment n : Text) : Text :=
  segment.take (Assignment.ofSegment segment).offset ++ (n ++
    segment.drop ((Assignment.ofSegment segment).offset +
      (Assignment.ofSegment segment).value.length))

section Segment

variable {s : Tally} {segment n : Text} {e : Entry}

/-- A mark stands in front of another value as well, unless that is cut at a sign of its own. -/
theorem IsMark.withValue {key mark v : Text} (h : IsMark key mark v)
    (hsign : key = [] → '=' ∉ n ∨ n = v) : IsMark key mark n := by
  cases h with
  | bare hv =>
    rcases hsign rfl with hn | rfl
    · exact .bare (equalsSign?_of_not_mem hn)
    · exact .bare hv
  | keyed hkey hdepth hfront hback hhead => exact .keyed hkey hdepth hfront hback hhead

theorem slice_parts {lead mark v trail : Text} (h : segment = lead ++ (mark ++ (v ++ trail))) :
    segment.take (lead.length + mark.length) = lead ++ mark ∧
      segment.drop (lead.length + mark.length + v.length) = trail := by
  rw [h, ← List.append_assoc, ← List.length_append]
  constructor
  · rw [List.take_left]
  · rw [← List.append_assoc, ← List.length_append, List.drop_left]

/-- **A segment with another value is read with that value**, if the value is not cut at a sign of
its own.  Behind a name, brackets stand open only if they do behind its value. -/
theorem readSegment_withValue (h : (readSegment s segment).1 = some e) (hn : IsValue n)
    (hsign : e.key = none → '=' ∉ n ∨ n = e.value) :
    readSegment s (withValue segment n) = (some { e with value := n }, (readSegment s segment).2) ∧
      (e.isName = true → nestingAfter (withValue segment n) = nestingAfter n) := by
  obtain ⟨hvalue, he⟩ := value_of_readSegment h
  obtain ⟨lead, mark, trail, hsegment, hlead, htrail, hmark, hoffset⟩ := exists_parts segment
  obtain ⟨htake, hdrop⟩ := slice_parts hsegment
  have hnew : withValue segment n = lead ++ (mark ++ (n ++ trail)) := by
    rw [withValue, hoffset, htake, hdrop, List.append_assoc]
  have hmark' : IsMark (Assignment.ofSegment segment).key mark n := by
    refine hmark.withValue fun hnil => ?_
    rw [he] at hsign
    exact hsign (by rw [hnil]; rfl)
  obtain ⟨hkey, hvalue', -⟩ := ofSegment_parts hlead htrail hmark' hn
  rw [← hnew] at hkey hvalue'
  constructor
  · rw [readSegment_of_value (by rw [hvalue']; exact hn.nonempty),
      readSegment_of_value hvalue, hkey,
      hvalue', he]
  · intro hname
    have hrole : (KeyMeaning.of (Assignment.ofSegment segment).key).role = .name := by
      rw [← s.role_count]
      rw [he] at hname
      exact of_decide_eq_true hname
    have hlabel := isLabel_of_role (by rw [hrole]; decide)
    rw [hnew, nestingAfter_parts hlead htrail hmark' .name 1, Entry.written]
    split
    · rename_i k hk
      exact nestingAfter_label (eq_of_nonempty? hk ▸ hlabel) n
    · rfl

end Segment

/-! ## 2. Segments with other names -/

/-- Entries that say what others say, but for the names: these have the given values in turn. -/
inductive SaysWith : (values : List Text) → List Entry → List Entry → Prop
  | nil : SaysWith [] [] []
  | name {n : Text} {ns : List Text} {e x : Entry} {es xs : List Entry} (hname : e.isName = true)
      (hsaid : x.said = Entry.said { e with value := n }) (hrest : SaysWith ns es xs) :
      SaysWith (n :: ns) (e :: es) (x :: xs)
  | other {ns : List Text} {e x : Entry} {es xs : List Entry} (hname : e.isName = false)
      (hsaid : x.said = e.said) (hrest : SaysWith ns es xs) : SaysWith ns (e :: es) (x :: xs)

/-- Entries that say the same belong to the same names. -/
theorem SaysWith.map_index {values : List Text} {es xs : List Entry} (h : SaysWith values es xs) :
    xs.map (·.index) = es.map (·.index) := by
  induction h with
  | nil => rfl
  | name hname hsaid hrest ih =>
    have hindex := congrArg Entry.index hsaid
    exact congrArg₂ List.cons hindex ih
  | other hname hsaid hrest ih =>
    have hindex := congrArg Entry.index hsaid
    exact congrArg₂ List.cons hindex ih

/-- The segments of a chain with the given values for its names, in turn. -/
def withNamesIn : Tally → (values : List Text) → (segments : List Text) → List Text
  | _, _, [] => []
  | s, values, segment :: rest =>
    if (readSegment s segment).1.any Entry.isName then
      values.head?.elim segment (withValue segment) ::
        withNamesIn (readSegment s segment).2 values.tail rest
    else segment :: withNamesIn (readSegment s segment).2 values rest

section Segments

variable {s : Tally} {segment n : Text} {values segments rest us vs : List Text} {e : Entry}

theorem withNamesIn_name (h : (readSegment s segment).1 = some e) (hname : e.isName = true) :
    withNamesIn s (n :: values) (segment :: rest) =
      withValue segment n :: withNamesIn (readSegment s segment).2 values rest := by
  rw [withNamesIn, h, Option.any_some, if_pos hname]
  rfl

theorem withNamesIn_other (h : (readSegment s segment).1.any Entry.isName = false) :
    withNamesIn s values (segment :: rest) =
      segment :: withNamesIn (readSegment s segment).2 values rest := by
  rw [withNamesIn, h, if_neg (by simp)]

theorem withNamesIn_ne_nil : withNamesIn s values (segment :: rest) ≠ [] := by
  rw [withNamesIn]
  split <;> exact List.cons_ne_nil _ _

/-- Values for the names of a chain: one for each, and none that would be cut at a sign of its own
in the place of a name without a key. -/
structure AreNamesFor (entries : List Entry) (values : List Text) : Prop where
  length : values.length = (entries.filter Entry.isName).length
  value : ∀ n ∈ values, IsValue n ∧ IsClosed n
  sign : ∀ x ∈ (entries.filter Entry.isName).zip values,
    x.1.key = none → '=' ∉ x.2 ∨ x.2 = x.1.value

theorem AreNamesFor.cons_other {entries : List Entry} (hname : e.isName = false)
    (h : AreNamesFor (e :: entries) values) : AreNamesFor entries values := by
  have hfilter : (e :: entries).filter Entry.isName = entries.filter Entry.isName :=
    List.filter_cons_of_neg (by simp [hname])
  exact ⟨hfilter ▸ h.length, h.value, hfilter ▸ h.sign⟩

theorem AreNamesFor.cons_name {entries : List Entry} (hname : e.isName = true)
    (h : AreNamesFor (e :: entries) values) :
    ∃ n ns, values = n :: ns ∧ AreNamesFor entries ns ∧ (IsValue n ∧ IsClosed n) ∧
      (e.key = none → '=' ∉ n ∨ n = e.value) := by
  have hfilter : (e :: entries).filter Entry.isName = e :: entries.filter Entry.isName :=
    List.filter_cons_of_pos hname
  obtain ⟨hlength, hvalue, hsign⟩ := h
  rw [hfilter] at hlength hsign
  cases values with
  | nil => cases hlength
  | cons n ns =>
    refine ⟨n, ns, rfl, ⟨by simpa using hlength, fun m hm => hvalue m (List.mem_cons_of_mem _ hm),
      fun x hx => hsign x (List.mem_cons_of_mem _ hx)⟩, hvalue n List.mem_cons_self,
      hsign (e, n) List.mem_cons_self⟩

/-- **Segments with other names say what they have said, with these names.**  Each of them is as it
was, or leaves nothing open. -/
theorem saysWith_withNamesIn (h : AreNamesFor (readEntries s segments) values) :
    SaysWith values (readEntries s segments) (readEntries s (withNamesIn s values segments)) ∧
      List.Forall₂ (fun u v => v = u ∨ IsClosed v ∧ v ≠ []) segments
        (withNamesIn s values segments) := by
  induction segments generalizing s values with
  | nil =>
    have hnil : values = [] := List.length_eq_zero_iff.mp h.length
    subst hnil
    exact ⟨.nil, .nil⟩
  | cons segment rest ih =>
    rw [readEntries_cons] at h ⊢
    cases hread : (readSegment s segment).1 with
    | none =>
      rw [hread] at h
      obtain ⟨hsay, hall⟩ := ih h
      rw [withNamesIn_other (by rw [hread]; rfl), readEntries_cons, hread]
      exact ⟨hsay, .cons (.inl rfl) hall⟩
    | some e =>
      rw [hread, Option.toList_some, List.singleton_append] at h
      rw [Option.toList_some, List.singleton_append]
      cases hname : e.isName with
      | false =>
        obtain ⟨hsay, hall⟩ := ih (h.cons_other hname)
        rw [withNamesIn_other (by rw [hread]; exact hname), readEntries_cons, hread]
        exact ⟨.other hname rfl hsay, .cons (.inl rfl) hall⟩
      | true =>
        obtain ⟨n, ns, rfl, hrest, ⟨hn, hclosed⟩, hsign⟩ := h.cons_name hname
        obtain ⟨hsay, hall⟩ := ih hrest
        obtain ⟨hnew, hnesting⟩ := readSegment_withValue hread hn hsign
        rw [withNamesIn_name hread hname, readEntries_cons, hnew]
        refine ⟨.name hname rfl hsay, .cons (.inr ⟨?_, ?_⟩) hall⟩
        · rw [isClosed_iff, hnesting hname, isClosed_iff.mp hclosed]
        · simp [withValue, hn.nonempty]

/-- Parts of which some are replaced by closed ones can still be told apart. -/
theorem IsParted.of_forall₂ (h : IsParted us)
    (hall : List.Forall₂ (fun u v => v = u ∨ IsClosed v ∧ v ≠ []) us vs) : IsParted vs := by
  induction hall with
  | nil => exact h
  | @cons u v us vs huv hall ih =>
    obtain ⟨hclosed, hrest⟩ := List.pairwise_cons.mp h.closed
    have hvs := ih ⟨fun w hw => h.piece w (List.mem_cons_of_mem _ hw), hrest⟩
    refine ⟨List.forall_mem_cons.mpr ⟨?_, hvs.piece⟩,
      List.pairwise_cons.mpr ⟨fun w hw => ?_, hvs.closed⟩⟩
    · rcases huv with rfl | ⟨hv, -⟩
      · exact h.piece _ List.mem_cons_self
      · exact hv.isPiece
    · rcases huv with rfl | ⟨hv, -⟩
      · -- something stands behind `v`, so it did behind `u`
        obtain ⟨x, hx⟩ : ∃ x, x ∈ us := by
          cases hall with
          | nil => cases hw
          | cons => exact ⟨_, List.mem_cons_self⟩
        exact hclosed x hx
      · exact hv

end Segments

/-! ## 3. Edits of names -/

/-- The edits that put values in the places of the names among entries, in turn. -/
def nameEdits (entries : List PlacedEntry) (values : List Text) : List Edit :=
  ((entries.filter (·.isName)).zip values).map fun x => ⟨x.1.span, x.2⟩

section Splice

variable {page segment u v : Text} {a b : Nat} {s : Tally} {values segments rest : List Text}

theorem slice_of_append (h : page.slice a b = u ++ v) (hb : b = a + (u.length + v.length)) :
    page.slice a (a + u.length) = u ∧ page.slice (a + u.length) b = v := by
  have hcut : ∀ i j, i ≤ j → j ≤ u.length + v.length →
      page.slice (a + i) (a + j) = (u ++ v).slice i j := by
    intro i j hij hj
    rw [← h, Text.slice_slice _ (by omega)]
  constructor
  · have hfront := hcut 0 u.length (by omega) (by omega)
    rw [Nat.add_zero] at hfront
    rw [hfront, Text.slice, List.take_left, List.drop_zero]
  · rw [hb, hcut u.length (u.length + v.length) (by omega) (by omega), Text.slice,
      List.take_of_length_le (by simp), List.drop_left]

/-- Where segments are read, entry by entry. -/
theorem entriesFrom_segment (offset : Nat) (s : Tally) (segment : Text) (rest : List Text) :
    entriesFrom offset s (segment :: rest) =
      ((readSegment s segment).1.map fun e => (⟨e, Span.ofLength
        (offset + (Assignment.ofSegment segment).offset) e.value.length⟩ : PlacedEntry)).toList ++
          entriesFrom (offset + segment.length + 1) (readSegment s segment).2 rest := by
  rw [entriesFrom, readSegment]
  split
  · rfl
  · simp only
    split <;> rfl

/-- A segment either has its name replaced, or stays as it is. -/
theorem names_cases (a : Nat) (s : Tally) (segment : Text) (rest values : List Text) :
    (∃ n ns, withNamesIn s values (segment :: rest) =
        withValue segment n :: withNamesIn (readSegment s segment).2 ns rest ∧
      nameEdits (entriesFrom a s (segment :: rest)) values =
        ⟨Span.ofLength (a + (Assignment.ofSegment segment).offset)
          (Assignment.ofSegment segment).value.length, n⟩ ::
            nameEdits (entriesFrom (a + segment.length + 1) (readSegment s segment).2 rest) ns) ∨
      ∃ ns, withNamesIn s values (segment :: rest) =
          segment :: withNamesIn (readSegment s segment).2 ns rest ∧
        nameEdits (entriesFrom a s (segment :: rest)) values =
          nameEdits (entriesFrom (a + segment.length + 1) (readSegment s segment).2 rest) ns := by
  rw [entriesFrom_segment]
  cases hread : (readSegment s segment).1 with
  | none => exact .inr ⟨values, withNamesIn_other (by rw [hread]; rfl), rfl⟩
  | some e =>
    obtain ⟨-, he⟩ := value_of_readSegment hread
    rw [Option.map_some, Option.toList_some, List.singleton_append]
    cases hname : e.isName with
    | false =>
      refine .inr ⟨values, withNamesIn_other (by rw [hread]; exact hname), ?_⟩
      rw [nameEdits, List.filter_cons_of_neg (by simp [hname]), nameEdits]
    | true =>
      cases values with
      | nil =>
        refine .inr ⟨[], ?_, by rw [nameEdits, nameEdits, List.zip_nil_right, List.zip_nil_right]⟩
        rw [withNamesIn, hread, Option.any_some, if_pos hname]
        rfl
      | cons n ns =>
        refine .inl ⟨n, ns, withNamesIn_name hread hname, ?_⟩
        rw [nameEdits, List.filter_cons_of_pos (by exact hname), List.zip_cons_cons, List.map_cons,
          nameEdits, he]

/-- **A segment gets its name, and what stands behind it its own.** -/
theorem spliced_segment {stop : Nat} (hslice : page.slice a b = segment)
    (hb : b = a + segment.length)
    (hrest : ∀ ns, Edit.Between b stop
        (nameEdits (entriesFrom (b + 1) (readSegment s segment).2 rest) ns) ∧
      Edit.spliced page stop b
        (nameEdits (entriesFrom (b + 1) (readSegment s segment).2 rest) ns) =
          barred (withNamesIn (readSegment s segment).2 ns rest)) (values : List Text) :
    Edit.Between a stop (nameEdits (entriesFrom a s (segment :: rest)) values) ∧
      Edit.spliced page stop a (nameEdits (entriesFrom a s (segment :: rest)) values) =
        Text.join ['|'] (withNamesIn s values (segment :: rest)) := by
  rcases names_cases a s segment rest values with ⟨n, ns, hnames, hedits⟩ | ⟨ns, hnames, hedits⟩
  · obtain ⟨hbetween, hspliced⟩ := hrest ns
    have hin := Assignment.bounds_ofSegment segment
    rw [hnames, hedits, ← hb, join_eq_flatMap, Edit.spliced,
      Span.start_ofLength, Span.stop_ofLength]
    refine ⟨⟨by simp, hbetween.mono (by simp; omega)⟩, ?_⟩
    -- what of the segment stands around the value is the same on the page
    have hcut : ∀ i j, i ≤ j → j ≤ segment.length →
        segment.slice i j = page.slice (a + i) (a + j) := by
      intro i j hij hj
      rw [← hslice, Text.slice_slice _ (by omega)]
    have hfront := hcut 0 (Assignment.ofSegment segment).offset (by omega) (by omega)
    have hback := hcut ((Assignment.ofSegment segment).offset +
      (Assignment.ofSegment segment).value.length) segment.length (by omega) (by omega)
    rw [Text.slice, List.drop_zero, Nat.add_zero] at hfront
    rw [Text.slice_length, ← hb, ← Nat.add_assoc] at hback
    rw [← Edit.slice_append_spliced hbetween (by omega), hspliced, withValue, hfront, hback]
    simp only [List.append_assoc, barred]
  · obtain ⟨hbetween, hspliced⟩ := hrest ns
    rw [hnames, hedits, ← hb, join_eq_flatMap,
      ← Edit.slice_append_spliced hbetween (by omega), hslice,
      hspliced]
    exact ⟨hbetween.mono (by omega), rfl⟩

/-- Segments with a bar in front of each get their names. -/
theorem spliced_barred (hslice : page.slice a b = barred segments)
    (hb : b = a + (barred segments).length) (values : List Text) :
    Edit.Between a b (nameEdits (entriesFrom (a + 1) s segments) values) ∧
      Edit.spliced page b a (nameEdits (entriesFrom (a + 1) s segments) values) =
        barred (withNamesIn s values segments) := by
  induction segments generalizing a s values with
  | nil =>
    have hnil : nameEdits (entriesFrom (a + 1) s []) values = [] := rfl
    rw [hnil]
    exact ⟨Nat.le.intro hb.symm, hslice⟩
  | cons segment rest ih =>
    rw [barred_cons, List.cons_append] at hslice
    rw [barred_cons, List.cons_append, List.length_cons, List.length_append] at hb
    obtain ⟨hbar, hbehind⟩ := slice_of_append (u := ['|']) hslice (by simp; omega)
    obtain ⟨hsegment, htail⟩ := slice_of_append hbehind (by simp; omega)
    obtain ⟨hbetween, hspliced⟩ := spliced_segment (s := s) hsegment rfl
      (fun ns => ih htail (by simp; omega) ns) values
    rw [List.length_singleton] at hbar hbetween hspliced
    refine ⟨hbetween.mono (by omega), ?_⟩
    rw [← Edit.slice_append_spliced hbetween (by omega), hbar, hspliced, List.singleton_append,
      cons_join withNamesIn_ne_nil]

/-- **Carrying out the edits of names puts the values into the segments.** -/
theorem spliced_names (hne : segments ≠ []) (hslice : page.slice a b = Text.join ['|'] segments)
    (hb : b = a + (Text.join ['|'] segments).length) (values : List Text) :
    Edit.Between a b (nameEdits (entriesFrom a s segments) values) ∧
      Edit.spliced page b a (nameEdits (entriesFrom a s segments) values) =
        Text.join ['|'] (withNamesIn s values segments) := by
  obtain ⟨segment, rest, rfl⟩ := List.exists_cons_of_ne_nil hne
  rw [join_eq_flatMap] at hslice hb
  rw [List.length_append] at hb
  obtain ⟨hsegment, htail⟩ := slice_of_append hslice hb
  exact spliced_segment hsegment rfl
    (fun ns => spliced_barred htail (by rw [barred]; omega) ns) values

end Splice

/-! ## 4. Names of a parameter text -/

section Placed

variable {t page : Text} {a : Nat} {values segments segments' : List Text}

theorem placedEntries_bar (hne : segments ≠ []) (h : IsParted segments) :
    (placedEntries ('|' :: Text.join ['|'] segments)).map (·.toEntry) =
      readEntries {} segments := by
  have hsegments := segments_join hne h
  unfold placedEntries
  simp only
  split
  · rename_i hempty
    rw [← hsegments, List.isEmpty_iff.mp hempty]
    rfl
  · rw [map_toEntry_entriesFrom, hsegments]

theorem segments_ne_nil (t : Text) : cutApart (segmentLengths t) t ≠ [] := by
  obtain ⟨n, ns, hlengths⟩ := List.exists_cons_of_ne_nil
    (show segmentLengths t ≠ [] from pieceLengthsFrom_ne_nil _ _ _ _ _ _ _)
  rw [hlengths, cutApart]
  exact List.cons_ne_nil _ _

/-- **A parameter text, segment by segment.**  With closed parts in the places of some segments it
is read as these say. -/
theorem exists_placed (t : Text) : ∃ (front : Text) (segments : List Text),
    t = front ++ Text.join ['|'] segments ∧ segments ≠ [] ∧
      placedEntries t = entriesFrom front.length {} segments ∧
      ∀ segments', List.Forall₂ (fun u v => v = u ∨ IsClosed v ∧ v ≠ []) segments segments' →
        (placedEntries (front ++ Text.join ['|'] segments')).map (·.toEntry) =
          readEntries {} segments' := by
  by_cases hbar : ∃ r, t = '|' :: r
  · obtain ⟨r, rfl⟩ := hbar
    obtain ⟨hjoin, hparted⟩ := isParted_segments r
    refine ⟨['|'], _, (congrArg ('|' :: ·) hjoin).symm, segments_ne_nil r, ?_,
      fun segments' hall => ?_⟩
    · cases r with
      | nil => rfl
      | cons d r => rfl
    · refine placedEntries_bar (fun hnil => ?_) (hparted.of_forall₂ hall)
      rw [hnil] at hall
      exact segments_ne_nil r (List.forall₂_nil_right_iff.mp hall)
  · obtain ⟨hjoin, hparted⟩ := isParted_segments t
    refine ⟨[], _, hjoin.symm, segments_ne_nil t, ?_, fun segments' hall => ?_⟩
    · cases t with
      | nil => rfl
      | cons c r =>
        unfold placedEntries
        split
        · rename_i r' heq
          exact absurd ⟨r', heq⟩ hbar
        · rfl
    · generalize cutApart (segmentLengths t) t = segments at hjoin hparted hall
      have hparted' := hparted.of_forall₂ hall
      rw [List.nil_append]
      cases hall with
      | nil => rfl
      | @cons u v rest rest' huv hrest =>
        by_cases hv : v = []
        · -- only a text without any segment begins with an empty one
          subst hv
          have hu : u = [] := (huv.resolve_right fun h => h.2 rfl).symm
          subst hu
          cases hrest with
          | nil => rfl
          | cons _ _ =>
            rw [join_eq_flatMap, List.flatMap_cons, List.nil_append] at hjoin
            exact absurd ⟨_, hjoin.symm⟩ hbar
        · refine placedEntries_join (List.cons_ne_nil _ _) (fun s hs => ?_) hparted'
          obtain rfl := Option.some.inj hs
          exact hv

/-- The entries in segments further on. -/
theorem entriesFrom_shift (a k : Nat) (s : Tally) (segments : List Text) :
    entriesFrom (a + k) s segments =
      (entriesFrom k s segments).map fun e => ⟨e.toEntry, e.span.shift a⟩ := by
  induction segments generalizing k s with
  | nil => rfl
  | cons segment rest ih =>
    have hrest := ih (k + segment.length + 1) (readSegment s segment).2
    rw [← Nat.add_assoc, ← Nat.add_assoc] at hrest
    have hspan : ∀ off n, Span.ofLength (a + k + off) n = (Span.ofLength (k + off) n).shift a := by
      intro off n
      simp only [Span.ofLength, Span.shift, Nat.add_assoc]
    rw [entriesFrom_segment, entriesFrom_segment, List.map_append, hrest]
    cases (readSegment s segment).1 with
    | none => rfl
    | some e => simp [hspan]

/-- The edits that put values in the places of the names of a parameter text that stands from `a` on
a page. -/
def placedEdits (a : Nat) (t : Text) (values : List Text) : List Edit :=
  (((placedEntries t).filter (·.isName)).zip values).map fun x => ⟨x.1.span.shift a, x.2⟩

/-- Values are put in one behind the other. -/
theorem settle_placedEdits (keep : Edit → Bool) (h : AreNamesFor (chainEntries t) values) :
    Edit.settle ((placedEdits a t values).filter keep) = (placedEdits a t values).filter keep := by
  have hlength : ((placedEntries t).filter (·.isName)).length ≤ values.length := by
    have hnames := h.length
    rw [chainEntries, List.filter_map, List.length_map] at hnames
    exact Nat.le_of_eq hnames.symm
  have hfst : ((((placedEntries t).filter (·.isName)).zip values).map Prod.fst).Pairwise
      fun e f => e.span.stop < f.span.start := by
    rw [List.map_fst_zip hlength]
    exact (pairwise_placedEntries t).filter _
  have hpair : (placedEdits a t values).Pairwise fun e f => e.span.stop < f.span.start := by
    refine List.pairwise_map.mpr ((List.pairwise_map.mp hfst).imp fun hlt => ?_)
    simp only [Span.stop_shift, Span.start_shift]
    omega
  refine Edit.settle_eq_self ((hpair.filter keep).imp fun {e f} hlt heq => ?_)
    ((hpair.filter keep).imp Nat.le_of_lt)
  have := f.span.ordered
  rw [heq] at hlt
  omega

/-- **A parameter text is read with the names that are put into it**, and as before otherwise. -/
theorem saysWith_placedEdits (hslice : page.slice a (a + t.length) = t)
    (h : AreNamesFor (chainEntries t) values) :
    Edit.Between a (a + t.length) (placedEdits a t values) ∧
      SaysWith values (chainEntries t)
        (chainEntries (Edit.spliced page (a + t.length) a (placedEdits a t values))) := by
  obtain ⟨front, segments, ht, hne, hplaced, hread⟩ := exists_placed t
  have hedits : placedEdits a t values =
      nameEdits (entriesFrom (a + front.length) {} segments) values := by
    rw [placedEdits, hplaced, nameEdits, entriesFrom_shift, List.filter_map, List.zip_map_left,
      List.map_map]
    rfl
  have hentries : chainEntries t = readEntries {} segments := by
    rw [chainEntries, hplaced, map_toEntry_entriesFrom]
  rw [hentries] at h ⊢
  obtain ⟨hsay, hall⟩ := saysWith_withNamesIn h
  have hcut : page.slice a (a + t.length) = front ++ Text.join ['|'] segments := hslice.trans ht
  have hlength : t.length = front.length + (Text.join ['|'] segments).length := by
    conv_lhs => rw [ht]
    rw [List.length_append]
  obtain ⟨hfront, hbehind⟩ := slice_of_append hcut (by omega)
  obtain ⟨hbetween, hspliced⟩ := spliced_names (s := {}) hne hbehind (by omega) values
  rw [hedits, ← Edit.slice_append_spliced hbetween (by omega), hfront, hspliced, chainEntries,
    hread _ hall]
  exact ⟨hbetween.mono (by omega), hsay⟩

end Placed

end CiteMarkup
