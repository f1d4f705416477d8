import CiteMarkup.Proofs.Chain.Following
import CiteMarkup.Proofs.Chain.InPlace
import CiteMarkup.Proofs.Chain.RoundTrip
import CiteMarkup.Proofs.Transform.Accounts
/-!
# Chains with other names

A chain that stays one says what it has said, with the names of its targets (`SaysWith`).  That is
so wherever the names are replaced in place.  A chain that is written anew has lost the parameters
without a value, and these have counted: it says the same if and only if its entries, counted
without them, have the indices that they had (`countsAlone`, `chain_renamed`).  A parameter that is
dropped can take a position with it, and then a group goes to another name
(`group_lost_with_position`).
-/

namespace CiteMarkup

/-! ## 1. Counting entries alone -/

section Counting

variable {r s : Tally} {e : Entry} {es : List Entry}

/-- The tally after a parameter that is kept, by its meaning. -/
def Tally.next (s : Tally) (m : KeyMeaning) : Tally :=
  (s.count m).2.2.keep (s.count m).1 (s.count m).2.1

/-- The index of an entry that is written after others, and what has been counted behind it.  A name
without a key is written at its position. -/
def Tally.reading (s : Tally) (e : Entry) : Nat × Tally :=
  match e.key with
  | none => (e.index, { s with names := max s.names e.index, latest := e.index })
  | some k => (max (s.count (KeyMeaning.of k)).2.1 1, s.next (KeyMeaning.of k))

/-- Entries that are counted without anything between them have their indices. -/
def countsAlone : Tally → List Entry → Bool
  | _, [] => true
  | s, e :: es => (s.reading e).1 = e.index && countsAlone (s.reading e).2 es

theorem Tally.names_le_count (s : Tally) (m : KeyMeaning) : s.names ≤ (s.count m).2.2.names := by
  cases m with
  | name index => cases index <;> simp [Tally.count]
  | part role index => cases role <;> simp [Tally.count]
  | unknown index => exact Nat.le_refl _

/-- A tally with more names has more names afterwards as well. -/
theorem Tally.names_next (h : r.names ≤ s.names) (m : KeyMeaning) :
    s.names ≤ (s.next m).names ∧ (r.next m).names ≤ (s.next m).names := by
  cases m with
  | name index => cases index <;> simp [Tally.next, Tally.count, Tally.keep] <;> omega
  | part role index =>
    by_cases hrole : role = .name
    · subst hrole
      simp [Tally.next, Tally.count, Tally.keep]
      omega
    · cases role <;> simp_all [Tally.next, Tally.count, Tally.keep]
  | unknown index => exact ⟨Nat.le_refl _, h⟩

/-- The parameters that a chain is written anew with. -/
def rewrittenParams (count : Nat) (entries : List Entry) : List Text :=
  chainParamsFrom (·.index) (fun _ key => key) count entries

/-- The entry `e` in front of others is written as one parameter, which is read with the index that
it is counted with; the names that have been written do not get ahead of the names counted. -/
def ReadsFirst (r : Tally) (count : Nat) (e : Entry) (es : List Entry) : Prop :=
  ∃ param count' x, rewrittenParams count (e :: es) = param :: rewrittenParams count' es ∧
    (∀ rest, readEntries r (param :: rest) = x :: readEntries (r.reading e).2 rest) ∧
    x.said = e.saidAt (r.reading e).1 ∧ count' ≤ (r.reading e).2.names

section First

variable {count : Nat}

/-- A parameter with a key is written as it has been. -/
theorem readsFirst_of_key {k : Text} (hk : e.key = some k) (hread : e.IsRead) (hsign : e.HasSign)
    (hcount : count ≤ r.names) : ReadsFirst r count e es := by
  obtain ⟨hne, htrimmed, hrole⟩ := hread.keyed k hk
  have hfirst : ∀ rest, readEntries r (assignment k e.value :: rest) =
      ⟨some k.trim, e.value, (r.count (KeyMeaning.of k)).1,
        max (r.count (KeyMeaning.of k)).2.1 1⟩ :: readEntries (r.next (KeyMeaning.of k)) rest :=
    fun rest => readEntries_keyed htrimmed.head hne (hsign k hk) hread.value
      (by rw [htrimmed.trim_eq]) rest
  have hreading : r.reading e =
      (max (r.count (KeyMeaning.of k)).2.1 1, r.next (KeyMeaning.of k)) := by
    simp only [Tally.reading, hk]
  unfold ReadsFirst
  rw [hreading]
  refine ⟨assignment k e.value, count, _, ?_, hfirst, ?_, ?_⟩
  · simp only [rewrittenParams, chainParamsFrom, hk]
  · rw [Entry.saidAt, Entry.said, r.role_count, ← hrole]
  · exact Nat.le_trans hcount (Tally.names_next (Nat.le_refl _) _).1

/-- A name without a key says its position by itself, or has it for a key. -/
theorem readsFirst_of_name (hk : e.key = none) (hread : e.IsRead) (hcount : count ≤ r.names)
    (hfree : r.names < e.index) : ReadsFirst r count e es := by
  have hrole := hread.keyless hk
  have hname : e.isName = true := decide_eq_true hrole
  have hreading : r.reading e =
      (e.index, { r with names := max r.names e.index, latest := e.index }) := by
    simp only [Tally.reading, hk]
  have hsaid : ∀ key, Entry.said ⟨key, e.value, .name, e.index⟩ = e.saidAt e.index :=
      fun key => by
    rw [← hrole]
    rfl
  have hparams : rewrittenParams count (e :: es) = nameParam e.value e.index count ::
      rewrittenParams (if needsNoKey e.value e.index count then count + 1 else count) es := by
    simp only [rewrittenParams, chainParamsFrom, hk, hname, if_true]
  unfold ReadsFirst
  rw [hreading, hparams]
  unfold nameParam
  cases hneeds : needsNoKey e.value e.index count with
  | true =>
    obtain ⟨hno, hnext⟩ := Bool.and_eq_true_iff.mp hneeds
    have hsign : '=' ∉ e.value := by simpa using hno
    have hindex : r.names + 1 = e.index := by
      have : (count : Int) + 1 = e.index := of_decide_eq_true hnext
      omega
    refine ⟨e.value, count + 1, ⟨none, e.value, .name, e.index⟩, rfl, fun rest => ?_, hsaid _, ?_⟩
    · rw [readEntries_bare hread.value hsign, hindex, Nat.max_eq_right (by omega)]
    · simp only
      omega
  | false =>
    have hnumber : Text.ofInt e.index = Text.ofNat e.index := rfl
    have hcounted : r.count (KeyMeaning.of (Text.ofNat e.index)) =
        (.name, e.index, { r with latest := e.index }) := by
      rw [keyMeaning_ofNat]
      rfl
    refine ⟨assignment (Text.ofInt e.index) e.value, count,
      ⟨some (Text.ofNat e.index), e.value, .name, e.index⟩, rfl, fun rest => ?_, hsaid _, ?_⟩
    · rw [hnumber,
        readEntries_assignment (isEntryKey_of_isKey (isKey_ofNat _)) hread.value hcounted,
        Nat.max_eq_left (by omega)]
      rfl
    · simp only
      omega

/-- **An entry that is written is read where it is counted.** -/
theorem readsFirst (es : List Entry) (hread : e.IsRead) (hsign : e.HasSign)
    (hcount : count ≤ r.names) (hfree : e.key = none → r.names < e.index) :
    ReadsFirst r count e es := by
  cases hk : e.key with
  | some k => exact readsFirst_of_key hk hread hsign hcount
  | none => exact readsFirst_of_name hk hread hcount (hfree hk)

end First

end Counting

/-! ## 2. Entries with other names -/

section Entries

variable {r s : Tally} {segments : List Text} {es es' : List Entry} {count : Nat}

/-- An entry as it is, or a name with a value that stands in a chain. -/
def Entry.MayBecome (e e' : Entry) : Prop :=
  e' = e ∨ e.isName = true ∧ ∃ n, IsValue n ∧ IsClosed n ∧ e' = { e with value := n }

theorem Entry.MayBecome.isRead {e e' : Entry} (h : e.MayBecome e') (hread : e.IsRead) :
    e'.IsRead := by
  rcases h with rfl | ⟨-, n, hn, -, rfl⟩
  · exact hread
  · exact ⟨hn, hread.keyless, hread.keyed⟩

theorem Entry.MayBecome.hasSign {e e' : Entry} (h : e.MayBecome e') (hsign : e.HasSign) :
    e'.HasSign := by
  rcases h with rfl | ⟨-, n, -, -, rfl⟩
  · exact hsign
  · exact hsign

/-- Another name is written by itself as something that is closed. -/
theorem Entry.MayBecome.written {e e' : Entry} (h : e.MayBecome e') (hread : e.IsRead) :
    e'.written = e.written ∨ IsClosed e'.written ∧ e'.written ≠ [] := by
  rcases h with rfl | ⟨hname, n, hn, hclosed, rfl⟩
  · exact .inl rfl
  · refine .inr ?_
    unfold Entry.written
    cases hk : e.key with
    | none => exact ⟨hclosed, hn.nonempty⟩
    | some k =>
      have hrole : (KeyMeaning.of k).role = .name :=
        (hread.keyed k hk).2.2.symm.trans (of_decide_eq_true hname)
      have hlabel : IsLabel k := isLabel_of_role (by rw [hrole]; decide)
      exact ⟨isClosed_assignment hlabel hclosed, by simp [assignment]⟩

theorem names_le_readSegment (s : Tally) (segment : Text) :
    s.names ≤ (readSegment s segment).2.names := by
  unfold readSegment
  simp only
  split
  · exact Nat.le_refl _
  · split
    · exact s.names_le_count _
    · exact (Tally.names_next (Nat.le_refl _) _).1

/-- What is read of a segment is counted in its turn as it would be by itself. -/
theorem readSegment_reading {segment : Text} {e : Entry} (h : (readSegment s segment).1 = some e) :
    s.reading e = (e.index, (readSegment s segment).2) ∧
      (e.key = none → e.index = s.names + 1) := by
  obtain ⟨hvalue, he⟩ := value_of_readSegment h
  have hstate : (readSegment s segment).2 =
      s.next (KeyMeaning.of (Assignment.ofSegment segment).key) := by
    rw [readSegment_of_value hvalue]
    rfl
  rw [hstate]
  generalize (Assignment.ofSegment segment).key = key at he
  by_cases hkey : key = []
  · subst hkey
    have hindex : e.index = s.names + 1 := by
      rw [he]
      change max (s.names + 1) 1 = s.names + 1
      omega
    have hnone : e.key = none := by
      rw [he]
      rfl
    have hnext : s.next (KeyMeaning.of []) =
        { s with names := max (s.names + 1) (s.names + 1), latest := s.names + 1 } := rfl
    rw [hnext, Nat.max_self]
    refine ⟨?_, fun _ => hindex⟩
    simp only [Tally.reading, hnone, hindex, Nat.max_eq_right (Nat.le_succ s.names)]
  · have hsome : e.key = some key := by
      rw [he]
      exact nonempty?_of_ne hkey
    have hindex : e.index = max (s.count (KeyMeaning.of key)).2.1 1 := by rw [he]
    refine ⟨by simp only [Tally.reading, hsome, hindex], fun hno => ?_⟩
    rw [hsome] at hno
    cases hno

/-- An entry comes to no more names where fewer have been counted before it. -/
theorem Tally.names_reading (h : r.names ≤ s.names) (e : Entry) :
    (r.reading e).2.names ≤ (s.reading e).2.names := by
  unfold Tally.reading
  cases e.key with
  | none =>
    simp only
    omega
  | some k => exact (Tally.names_next h _).2

/-- **Entries with other names that are written anew are read as they stand if and only if they are
counted so.** -/
theorem said_rewrittenParams (h : List.Forall₂ Entry.MayBecome (readEntries s segments) es')
    (hread : ∀ e ∈ es', e.IsRead) (hsign : ∀ e ∈ es', e.HasSign) (hnames : r.names ≤ s.names)
    (hcount : count ≤ r.names) :
    (readEntries r (rewrittenParams count es')).map Entry.said = es'.map Entry.said ↔
      countsAlone r es' = true := by
  induction segments generalizing r s es' count with
  | nil =>
    cases h
    exact iff_of_true rfl rfl
  | cons segment rest ih =>
    rw [readEntries_cons] at h
    cases hfirst : (readSegment s segment).1 with
    | none =>
      rw [hfirst] at h
      exact ih h hread hsign (Nat.le_trans hnames (names_le_readSegment s segment)) hcount
    | some e =>
      rw [hfirst, Option.toList_some, List.singleton_append] at h
      cases h with
      | @cons _ e' _ es' he hrest =>
        obtain ⟨hwhole, hnext⟩ := readSegment_reading hfirst
        have hle : (r.reading e).2.names ≤ (readSegment s segment).2.names := by
          have hle := Tally.names_reading hnames e
          rwa [hwhole] at hle
        -- the key and the index are those that have been read
        have hsame : r.reading e' = r.reading e ∧ e'.key = e.key ∧ e'.index = e.index := by
          rcases he with rfl | ⟨-, n, -, -, rfl⟩
          · exact ⟨rfl, rfl, rfl⟩
          · exact ⟨rfl, rfl, rfl⟩
        obtain ⟨hreading, hkey, hindex⟩ := hsame
        have hfree : e'.key = none → r.names < e'.index := by
          intro hnone
          rw [hkey] at hnone
          have := hnext hnone
          omega
        obtain ⟨param, count', x, hparams, hx, hsaid, hcount'⟩ := readsFirst es'
          (hread e' List.mem_cons_self) (hsign e' List.mem_cons_self) hcount hfree
        have hih := ih hrest (fun y hy => hread y (List.mem_cons_of_mem _ hy))
          (fun y hy => hsign y (List.mem_cons_of_mem _ hy)) (hreading ▸ hle) hcount'
        have hat : e'.saidAt (r.reading e').1 = e'.said ↔ (r.reading e').1 = e'.index :=
          ⟨fun heq => congrArg Entry.index heq, fun heq => by rw [heq]; rfl⟩
        rw [hparams, hx, List.map_cons, List.map_cons, List.cons.injEq,
          hsaid, hat, hih, countsAlone]
        simp

end Entries

/-! ## 3. Targets of names -/

section Targets

variable {es es' xs : List Entry} {targets : List Target} {finals : List Text}

variable (es) in
theorem mayBecome_withNames (htargets : targets.map (·.name) = finals.map some)
    (hfinals : ∀ n ∈ finals, IsValue n ∧ IsClosed n) :
    List.Forall₂ Entry.MayBecome es (withNames es targets) := by
  induction es generalizing targets finals with
  | nil => exact .nil
  | cons e es ih =>
    cases hname : e.isName with
    | false =>
      simp only [withNames, hname, Bool.false_eq_true, if_false]
      exact .cons (.inl rfl) (ih htargets hfinals)
    | true =>
      cases targets with
      | nil =>
        simp only [withNames, hname, if_true]
        exact .cons (.inl rfl) (ih htargets hfinals)
      | cons target targets =>
        cases finals with
        | nil => cases htargets
        | cons n finals =>
          simp only [List.map_cons, List.cons.injEq] at htargets
          obtain ⟨hn, hclosed⟩ := hfinals n List.mem_cons_self
          simp only [withNames, hname, if_true, htargets.1, Option.getD_some]
          exact .cons (.inr ⟨hname, n, hn, hclosed, rfl⟩)
            (ih htargets.2 fun m hm => hfinals m (List.mem_cons_of_mem _ hm))

/-- Entries say what others say, with given values for the names, if they say what these say with
the names of the targets. -/
theorem saysWith_iff (htargets : targets.map (·.name) = finals.map some)
    (hlength : targets.length = (es.filter Entry.isName).length) :
    SaysWith finals es xs ↔ xs.map Entry.said = (withNames es targets).map Entry.said := by
  induction es generalizing targets finals xs with
  | nil =>
    obtain rfl : targets = [] := List.length_eq_zero_iff.mp hlength
    obtain rfl : finals = [] := by simpa using htargets.symm
    constructor
    · intro h
      cases h
      rfl
    · intro h
      obtain rfl : xs = [] := List.map_eq_nil_iff.mp h
      exact .nil
  | cons e es ih =>
    cases hname : e.isName with
    | false =>
      rw [List.filter_cons_of_neg (by simp [hname])] at hlength
      simp only [withNames, hname, Bool.false_eq_true, if_false, List.map_cons]
      constructor
      · intro h
        cases h with
        | name hname' => cases hname.symm.trans hname'
        | other _ hsaid hrest => rw [List.map_cons, hsaid, (ih htargets hlength).mp hrest]
      · intro h
        obtain ⟨x, xs, rfl, hsaid, hrest⟩ := List.map_eq_cons_iff.mp h
        exact .other hname hsaid ((ih htargets hlength).mpr hrest)
    | true =>
      rw [List.filter_cons_of_pos hname, List.length_cons] at hlength
      cases targets with
      | nil => cases hlength
      | cons target targets =>
        cases finals with
        | nil => cases htargets
        | cons n finals =>
          simp only [List.map_cons, List.cons.injEq] at htargets
          have hlength : targets.length = (es.filter Entry.isName).length := by simpa using hlength
          simp only [withNames, hname, if_true, htargets.1, Option.getD_some, List.map_cons]
          constructor
          · intro h
            cases h with
            | other hname' => cases hname.symm.trans hname'
            | name _ hsaid hrest => rw [List.map_cons, hsaid, (ih htargets.2 hlength).mp hrest]
          · intro h
            obtain ⟨x, xs, rfl, hsaid, hrest⟩ := List.map_eq_cons_iff.mp h
            exact .name hname hsaid ((ih htargets.2 hlength).mpr hrest)

/-- Entries with other names can be written by themselves. -/
theorem forall₂_written (h : List.Forall₂ Entry.MayBecome es es')
    (hread : ∀ e ∈ es, e.IsRead ∧ e.HasSign) :
    List.Forall₂ (fun u v => v = u ∨ IsClosed v ∧ v ≠ []) (es.map Entry.written)
        (es'.map Entry.written) ∧ ∀ e ∈ es', e.IsRead ∧ e.HasSign := by
  induction h with
  | nil => exact ⟨.nil, by simp⟩
  | @cons e e' es es' he _ ih =>
    obtain ⟨hwritten, hall⟩ := ih fun x hx => hread x (List.mem_cons_of_mem _ hx)
    obtain ⟨hfirst, hsign⟩ := hread e List.mem_cons_self
    exact ⟨.cons (he.written hfirst) hwritten,
      List.forall_mem_cons.mpr ⟨⟨he.isRead hfirst, he.hasSign hsign⟩, hall⟩⟩

/-- **A chain that is written anew with other names is read as it stands if and only if its entries
count alone.** -/
theorem said_rewritten {t : Text} (hes : List.Forall₂ Entry.MayBecome (chainEntries t) es')
    (hne : es' ≠ []) :
    (chainEntries (Text.join ['|'] (rewrittenParams 0 es'))).map Entry.said = es'.map Entry.said ↔
      countsAlone {} es' = true := by
  obtain ⟨segments, -, hsegments⟩ := exists_segments t
  obtain ⟨hparted, hread⟩ := isParted_written t
  obtain ⟨hwritten, hread'⟩ := forall₂_written hes hread
  have hplaced : chainEntries (Text.join ['|'] (rewrittenParams 0 es')) =
      readEntries {} (rewrittenParams 0 es') :=
    placedEntries_chain hne (fun e he => (hread' e he).1) (hparted.of_forall₂ hwritten)
      fun _ _ _ _ => rfl
  rw [hplaced]
  rw [chainEntries, hsegments] at hes
  exact said_rewrittenParams hes (fun e he => (hread' e he).1) (fun e he => (hread' e he).2)
    (Nat.le_refl _) (Nat.le_refl _)

/-- What is counted does not depend on the values. -/
theorem countsAlone_mayBecome (s : Tally) (h : List.Forall₂ Entry.MayBecome es es') :
    countsAlone s es' = countsAlone s es := by
  induction h generalizing s with
  | nil => rfl
  | @cons e e' es es' he _ ih =>
    have hsame : s.reading e' = s.reading e ∧ e'.index = e.index := by
      rcases he with rfl | ⟨-, n, -, -, rfl⟩
      · exact ⟨rfl, rfl⟩
      · exact ⟨rfl, rfl⟩
    rw [countsAlone, countsAlone, hsame.1, hsame.2, ih]

end Targets

/-! ## 4. Chains on a page -/

namespace Chain

variable {c : Chain} {useChains : Option Bool} {targets : List Target} {finals : List Text}

/-- A name without a key would be read as key and value, so the chain is written anew. -/
def isRewritten (c : Chain) (targets : List Target) : Bool :=
  (renamedNames c targets).any fun x => x.1.key.isNone && x.2.elem '='

/-- The edits to a chain that stays one. -/
theorem renamingEdits_eq (c : Chain) (targets : List Target) : c.renamingEdits targets =
    if c.isRewritten targets then
      (writeChain? c.template.chainName (withNames c.plainEntries targets)).toList.map fun t =>
        ⟨c.template.span, t⟩
    else (renamedNames c targets).map fun x =>
      ⟨x.1.span.shift c.template.paramsStart, x.2⟩ :=
  rfl

theorem mem_renamedNames {x : PlacedEntry × Text} : x ∈ renamedNames c targets ↔
    ∃ target, (x.1, target) ∈ c.names.zip targets ∧ target.name = some x.2 ∧ x.2 ≠ x.1.value := by
  rw [renamedNames, List.mem_filterMap]
  constructor
  · rintro ⟨⟨e, target⟩, hmem, heq⟩
    cases hname : target.name with
    | none => simp [hname] at heq
    | some n =>
      simp only [hname] at heq
      split at heq
      · rename_i hne
        obtain rfl := Option.some.inj heq
        exact ⟨target, hmem, hname, hne⟩
      · cases heq
  · rintro ⟨target, hmem, hname, hne⟩
    refine ⟨_, hmem, ?_⟩
    simp only [hname, if_pos hne]

theorem edits_of_finals (huse : useChains ≠ some false)
    (htargets : targets.map (·.name) = finals.map some)
    (hfinals : ∀ n ∈ finals, fitsChain n = true) :
    c.edits useChains targets = (c.renamingEdits targets, []) := by
  have hmust : mustExpand useChains targets = false := by
    rw [mustExpand, Bool.or_eq_false_iff, List.any_eq_false]
    refine ⟨by simpa using huse, fun target ht => ?_⟩
    have hmem : target.name ∈ finals.map some := htargets ▸ List.mem_map_of_mem ht
    obtain ⟨n, hn, heq⟩ := List.mem_map.mp hmem
    simp [← heq, hfinals n hn]
  rw [edits, isToExpand, hmust, Bool.and_false, if_neg (by simp)]

/-- What a chain that is written anew is replaced by. -/
theorem renamingEdits_rewritten (hrewritten : c.isRewritten targets = true)
    (hadmits : c.admits targets = true) (htargets : targets.map (·.name) = finals.map some) :
    withNames c.plainEntries targets ≠ [] ∧
      c.renamingEdits targets = [⟨c.template.span, writeTemplate c.template.chainName
        (rewrittenParams 0 (withNames c.plainEntries targets))⟩] := by
  obtain ⟨x, hx, -⟩ := List.any_eq_true.mp hrewritten
  obtain ⟨y, hy, -⟩ := List.mem_filterMap.mp hx
  have hany := any_withNames hadmits htargets (List.ne_nil_of_mem (List.of_mem_zip hy).1)
  constructor
  · intro hnil
    rw [hnil] at hany
    cases hany
  · rw [renamingEdits_eq, if_pos hrewritten, writeChain?, if_pos hany]
    rfl

/-- The edits that put other names in place. -/
theorem renamingEdits_inPlace (hrewritten : c.isRewritten targets = false) {page : Text}
    (hcut : ∀ e ∈ c.names, page.cut (e.span.shift c.template.paramsStart) = e.value)
    (htargets : targets.map (·.name) = finals.map some) :
    c.renamingEdits targets = (c.inPlace finals).filter fun e => page.cut e.span ≠ e.text := by
  have hfilter : ((renamedNames c targets).map fun x =>
      (⟨x.1.span.shift c.template.paramsStart, x.2⟩ : Edit)).filter
        (fun e => page.cut e.span ≠ e.text) =
      (c.inPlace finals).filter fun e => page.cut e.span ≠ e.text := filter_renamed hcut htargets
  rw [renamingEdits_eq, if_neg (by simp [hrewritten]), ← hfilter, Eq.comm, List.filter_eq_self]
  intro edit hedit
  obtain ⟨x, hx, rfl⟩ := List.mem_map.mp hedit
  obtain ⟨target, hmem, -, hne⟩ := mem_renamedNames.mp hx
  have hvalue := hcut x.1 (List.of_mem_zip hmem).1
  exact decide_eq_true fun heq => hne (heq.symm.trans hvalue)

/-- The names of the targets can be put into a chain that need not be written anew. -/
theorem areNamesFor (hrewritten : c.isRewritten targets = false)
    (hadmits : c.admits targets = true) (htargets : targets.map (·.name) = finals.map some)
    (hfinals : ∀ n ∈ finals, IsValue n ∧ IsClosed n) : AreNamesFor c.plainEntries finals := by
  have hnames : c.plainEntries.filter Entry.isName = c.names.map (·.toEntry) := by
    rw [names, plainEntries, List.filter_map]
    rfl
  have hlength : targets.length = finals.length := by simpa using congrArg List.length htargets
  refine ⟨hlength.symm.trans (length_targets hadmits), hfinals, fun x hx hkey => ?_⟩
  have hsome : (x.1, some x.2) ∈ (c.names.zip targets).map (Prod.map (·.toEntry) (·.name)) := by
    rw [← List.zip_map, htargets, ← hnames, List.zip_map_right]
    exact List.mem_map.mpr ⟨x, hx, rfl⟩
  obtain ⟨⟨e, target⟩, hmem, heq⟩ := List.mem_map.mp hsome
  obtain ⟨he, hname⟩ := Prod.mk.inj heq
  by_cases hsame : x.2 = x.1.value
  · exact .inr hsame
  · -- a name that is replaced has no sign, or the chain would be written anew
    have hchanged : (e, x.2) ∈ renamedNames c targets := by
      refine mem_renamedNames.mpr ⟨target, hmem, hname, fun heq => hsame (heq.trans ?_)⟩
      exact congrArg Entry.value he
    have hno := List.any_eq_false.mp hrewritten _ hchanged
    have hnone : e.key = none := (congrArg Entry.key he).trans hkey
    left
    simpa [hnone] using hno

/-- **A chain that is written anew says the same if and only if its entries count alone.** -/
theorem saysWith_rewritten (hc : c.entries = placedEntries c.template.paramText)
    (hne : withNames c.plainEntries targets ≠ []) (hadmits : c.admits targets = true)
    (htargets : targets.map (·.name) = finals.map some)
    (hfinals : ∀ n ∈ finals, IsValue n ∧ IsClosed n) :
    SaysWith finals c.plainEntries (chainEntries
      (Text.join ['|'] (rewrittenParams 0 (withNames c.plainEntries targets)))) ↔
        countsAlone {} c.plainEntries = true := by
  have hmay := mayBecome_withNames c.plainEntries htargets hfinals
  have hplain : c.plainEntries = chainEntries c.template.paramText := by
    rw [plainEntries, hc, chainEntries]
  rw [saysWith_iff htargets (length_targets hadmits), ← countsAlone_mayBecome {} hmay]
  rw [hplain] at hmay hne ⊢
  exact said_rewritten hmay hne

/-- **A chain that is edited in place says the same**, and nothing but its parameters changes. -/
theorem applyAll_inPlace {p : Page} (hc : c.entries = placedEntries c.template.paramText)
    (hi : p.IsInvocation c.template) (hnames : AreNamesFor c.plainEntries finals)
    (keep : Edit → Bool)
    (hkeep : ∀ e ∈ c.inPlace finals, keep e = false → p.raw.cut e.span = e.text) :
    ∃ params, Edit.applyAll p.raw ((c.inPlace finals).filter keep) =
        p.raw.take c.template.paramsStart ++ params ++ p.raw.drop (c.template.span.stop - 2) ∧
      SaysWith finals c.plainEntries (chainEntries params) := by
  have hplain : c.plainEntries = chainEntries c.template.paramText := by
    rw [plainEntries, hc, chainEntries]
  have hplaced : c.inPlace finals =
      placedEdits c.template.paramsStart c.template.paramText finals := by
    rw [inPlace, names, hc]
    rfl
  rw [hplain] at hnames ⊢
  rw [hplaced] at hkeep ⊢
  have hstop := hi.stop_eq
  have hle := hi.stop_le
  have hlast : c.template.span.stop - 2 =
      c.template.paramsStart + c.template.paramText.length := by omega
  have hslice := hi.paramText_eq.symm
  rw [hlast] at hslice ⊢
  obtain ⟨hbetween, hsay⟩ := saysWith_placedEdits hslice hnames
  obtain ⟨hkept, hspliced⟩ := Edit.spliced_filter hbetween keep hkeep
  refine ⟨_, Edit.applyAll_between hkept (settle_placedEdits keep hnames) (by omega), ?_⟩
  rw [hspliced]
  exact hsay

end Chain

/-- **A chain whose references have other names says what it has said, with these names.**  It is
edited in place, so that nothing else of it changes, or it is written anew.  What is written anew
says the same if and only if the entries have their indices without the parameters that have no
value. -/
theorem chain_renamed {t : Text} {names : List Text} {c : Chain}
    (hc : c ∈ (Model.ofText t names).chains) {useChains : Option Bool}
    (huse : useChains ≠ some false) {targets : List Target} (hadmits : c.admits targets = true)
    {finals : List Text} (htargets : targets.map (·.name) = finals.map some)
    (hfinals : ∀ n ∈ finals, IsValue n ∧ fitsChain n = true) :
    (c.edits useChains targets).2 = [] ∧ ∃ front params back : Text,
      (front, back) = (if c.isRewritten targets then
          (['{', '{'] ++ c.template.chainName ++ ['|'], ['}', '}'])
        else (t.slice c.template.span.start c.template.paramsStart,
          t.slice (c.template.span.stop - 2) c.template.span.stop)) ∧
      Edit.applyAll t (c.edits useChains targets).1 = t.take c.template.span.start ++
        (front ++ params ++ back) ++ t.drop c.template.span.stop ∧
      (SaysWith finals c.plainEntries (chainEntries params) ↔
        (c.isRewritten targets = true → countsAlone {} c.plainEntries = true)) := by
  have haccounts := accounts_ofText t names
  have hentries := (haccounts.mem_chains hc).2
  have hi := haccounts.isInvocation_of_chain hc
  have hclosed : ∀ n ∈ finals, IsValue n ∧ IsClosed n :=
    fun n hn => ⟨(hfinals n hn).1, isClosed_of_fitsChain (hfinals n hn).2⟩
  have hstop : c.template.span.stop ≤ t.length := hi.stop_le
  have hedits := Chain.edits_of_finals (c := c) huse htargets fun n hn => (hfinals n hn).2
  refine ⟨by rw [hedits], ?_⟩
  rw [hedits]
  cases hrewritten : c.isRewritten targets with
  | true =>
    obtain ⟨hne, hrenaming⟩ := Chain.renamingEdits_rewritten hrewritten hadmits htargets
    have hwhole : Edit.Between c.template.span.start c.template.span.stop
        [⟨c.template.span, writeTemplate c.template.chainName
          (rewrittenParams 0 (withNames c.plainEntries targets))⟩] := ⟨Nat.le_refl _, Nat.le_refl _⟩
    refine ⟨_, Text.join ['|'] (rewrittenParams 0 (withNames c.plainEntries targets)),
      _, rfl, ?_, ?_⟩
    · rw [hrenaming, Edit.applyAll_between hwhole rfl hstop, Edit.spliced, Edit.spliced,
        Text.slice_self, Text.slice_self, writeTemplate]
      simp
    · rw [Chain.saysWith_rewritten hentries hne hadmits htargets hclosed]
      simp
  | false =>
    have hnames := Chain.areNamesFor hrewritten hadmits htargets hclosed
    have hrenaming := Chain.renamingEdits_inPlace hrewritten
      (fun e he => Chain.cut_name hentries hi he) htargets
    obtain ⟨params, happly, hsay⟩ := Chain.applyAll_inPlace hentries hi hnames
      (fun e => t.cut e.span ≠ e.text) fun e _ hkeep => by
        exact Decidable.not_not.mp (of_decide_eq_false hkeep)
    have hroom := hi.room
    have hend := hi.stop_eq
    have hfront : t.take c.template.paramsStart =
        t.take c.template.span.start ++ t.slice c.template.span.start c.template.paramsStart :=
      (Text.slice_append_slice t (Nat.zero_le _) (by omega)).symm
    have hback : t.drop (c.template.span.stop - 2) =
        t.slice (c.template.span.stop - 2) c.template.span.stop ++ t.drop c.template.span.stop := by
      rw [← Text.slice_length, ← Text.slice_length, Text.slice_append_slice t (by omega) hstop]
    refine ⟨_, params, _, rfl, ?_, iff_of_true hsay (by simp)⟩
    have hdone : Edit.applyAll t (c.renamingEdits targets) =
        t.take c.template.paramsStart ++ params ++ t.drop (c.template.span.stop - 2) := by
      rw [hrenaming]
      exact happly
    rw [hdone, hfront, hback]
    simp

/-- A chain that is written anew, and says the same. -/
theorem chain_renamed_with_sign :
    let t := "\x7b\x7br|a|p=3|b|lang2=fr\x7d\x7d".toList
    let finals := ["a".toList, "x=y".toList]
    let targets : List Target := [⟨some "a".toList, none⟩, ⟨some "x=y".toList, none⟩]
    ∃ c ∈ (Model.ofText t defaultListNames).chains, c.isRewritten targets = true ∧
      Edit.applyAll t (c.edits none targets).1 = "\x7b\x7br|a|p=3|2=x=y|lang2=fr\x7d\x7d".toList ∧
      ∃ params : Text, Edit.applyAll t (c.edits none targets).1 =
          t.take c.template.span.start ++
            (['{', '{'] ++ c.template.chainName ++ ['|'] ++ params ++ ['}', '}']) ++
              t.drop c.template.span.stop ∧
        SaysWith finals c.plainEntries (chainEntries params) := by
  intro t finals targets
  obtain ⟨c, hc, hadmits, hrewritten, htext, hcounts⟩ :
      ∃ c ∈ (Model.ofText t defaultListNames).chains, c.admits targets = true ∧
        c.isRewritten targets = true ∧
        Edit.applyAll t (c.edits none targets).1 =
          "\x7b\x7br|a|p=3|2=x=y|lang2=fr\x7d\x7d".toList ∧
        countsAlone {} c.plainEntries = true := by
    decide +kernel
  have htargets : targets.map (·.name) = finals.map some := rfl
  have hnone : (none : Option Bool) ≠ some false := by decide
  obtain ⟨-, front, params, back, hends, hwhole, hsay⟩ :=
    chain_renamed hc hnone hadmits htargets (by decide)
  rw [if_pos hrewritten] at hends
  obtain ⟨rfl, rfl⟩ := Prod.mk.inj hends
  exact ⟨c, hc, hrewritten, htext, params, hwhole, hsay.mpr fun _ => hcounts⟩

/-- **A group goes to another name when a position is lost.**  The parameter `n=` has no value, but
it takes the first position, and so the group belongs to the name behind it.  The chain is written
anew without it. -/
theorem group_lost_with_position :
    let t := "\x7b\x7br|n=|n=b|c|group2=g\x7d\x7d".toList
    let targets : List Target := [⟨some "b".toList, none⟩, ⟨some "x=y".toList, none⟩]
    ∃ c ∈ (Model.ofText t defaultListNames).chains, c.admits targets = true ∧
      (targets.all fun target => target.name.any fitsChain) = true ∧
      Edit.applyAll t (c.edits none targets).1 = "\x7b\x7br|n=b|3=x=y|group2=g\x7d\x7d".toList ∧
      groupAt? c.plainEntries 2 = some "g".toList ∧
      ¬ SaysWith ["b".toList, "x=y".toList] c.plainEntries
        (chainEntries "n=b|3=x=y|group2=g".toList) := by
  intro t targets
  obtain ⟨c, hc, hadmits, hfits, htext, hgroup, hindices⟩ :
      ∃ c ∈ (Model.ofText t defaultListNames).chains, c.admits targets = true ∧
        (targets.all fun target => target.name.any fitsChain) = true ∧
        Edit.applyAll t (c.edits none targets).1 =
          "\x7b\x7br|n=b|3=x=y|group2=g\x7d\x7d".toList ∧
        groupAt? c.plainEntries 2 = some "g".toList ∧
        (chainEntries "n=b|3=x=y|group2=g".toList).map (·.index) ≠
          c.plainEntries.map (·.index) := by
    decide +kernel
  exact ⟨c, hc, hadmits, hfits, htext, hgroup, fun hsay => hindices hsay.map_index⟩

end CiteMarkup
