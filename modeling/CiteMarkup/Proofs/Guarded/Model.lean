import CiteMarkup.Guarded.Model
import CiteMarkup.Proofs.Reference.Catalogue
import CiteMarkup.Proofs.Transform.Merging
/-!
# Reading and placing never fault

The guards of the reading hold for every text: an identity that has a number has a record under
it, since both are given out together (`Filing.Filed`), and a record holds the occurrence that
it was opened for.  The guards of the lookups hold in every model whose records have numbers of
their own and point at records that stand for themselves.  So the guarded stages give what the
stages without guards give.
-/

namespace CiteMarkup.Guarded

variable {α β : Type}

/-! ## 1. Going on -/

@[simp] theorem get_some (fault : Fault) (a : α) : get fault (some a) = .ok a := rfl

@[simp] theorem ok_bind (a : α) (f : α → Guarded β) : ((.ok a : Guarded α) >>= f) = f a := rfl

/-- A traversal without a fault is a map. -/
theorem mapM_eq_map {f : α → Guarded β} {g : α → β} {l : List α}
    (h : ∀ a ∈ l, f a = .ok (g a)) : l.mapM f = .ok (l.map g) := by
  induction l with
  | nil => rfl
  | cons a l ih =>
    rw [List.mapM_cons, h a List.mem_cons_self, ok_bind,
      ih fun b hb => h b (List.mem_cons_of_mem _ hb)]
    rfl

/-! ## 2. Identities, pages and marks -/

theorem identity_ok {name : Text} (h : name ≠ []) (group : Option Text) :
    identity name group = .ok (identityOf name group) := by
  rw [identity, List.isEmpty_eq_false_iff.mpr h]
  rfl

theorem page_ok (t : Text) : page t = .ok (Page.ofText t) := by
  rw [page, Page.ofPair?, dif_pos (length_veil t)]
  rfl

/-- The mark of a token stands for the token. -/
theorem token_ofToken (k : Token) : (Mark.ofToken k).token = .ok k := by
  cases k <;> rfl

theorem tokens_ok (p : Page) (listNames : List Text) :
    tokens p listNames = .ok (p.tokens listNames) := by
  rw [tokens, List.mapM_map]
  have hread : ∀ k ∈ p.tokens listNames, (Mark.token ∘ Mark.ofToken) k = .ok (id k) :=
    fun k _ => token_ofToken k
  rw [mapM_eq_map hread, List.map_id]

/-! ## 3. Filing -/

/-- Numbers and records have been given out together: the number of an identity is the place of
the record with it. -/
def Filing.Filed (f : Filing) : Prop :=
  ∀ key i, f.numbers.get? key = some i ↔ ∃ r, f.records[i]? = some r ∧ r.key = key

theorem Filing.filed_empty : ({} : Filing).Filed := by
  intro key i
  simp [Dictionary.get?]

namespace Filing

variable {f : Filing} {key : Text} {o : Occurrence} {i : Nat} {r : Record}

/-- To replace the record of an identity is to change each record with that identity. -/
theorem set_eq_sortInto (h : f.Filed) (hi : f.numbers.get? key = some i)
    (hr : f.records[i]? = some r) (hkey : r.key = key) :
    f.records.set i (r.add o) = sortInto key o f.records := by
  have hany : (f.records.any fun s => s.key == key) = true :=
    List.any_eq_true.mpr ⟨r, List.mem_of_getElem? hr, by simpa using hkey⟩
  have hlt : i < f.records.length := (List.getElem?_eq_some_iff.mp hr).1
  rw [sortInto, if_pos hany]
  refine List.ext_getElem? fun j => ?_
  rw [List.getElem?_set, List.getElem?_map]
  by_cases hj : i = j
  · subst hj
    rw [if_pos rfl, if_pos hlt, hr]
    simp [hkey]
  · rw [if_neg hj]
    cases hs : f.records[j]? with
    | none => rfl
    | some s =>
      -- a second record of the identity would give it a second number
      have hne : s.key ≠ key := fun heq => hj (Option.some.inj (hi.symm.trans
        ((h key j).mpr ⟨s, hs, heq⟩)))
      simp [hne]

/-- **Filing finds the record of a number**, and does what sorting into a list does. -/
theorem file_ok (h : f.Filed) (key : Text) (o : Occurrence) :
    ∃ f', f.file key o = .ok f' ∧ f'.records = sortInto key o f.records ∧ f'.Filed := by
  cases hi : f.numbers.get? key with
  | some i =>
    obtain ⟨r, hr, hkey⟩ := (h key i).mp hi
    have hset := set_eq_sortInto (o := o) h hi hr hkey
    refine ⟨{ f with records := f.records.set i (r.add o) }, ?_, hset, fun k j => ?_⟩
    · rw [file, hi]
      change (get _ f.records[i]? >>= _) = _
      rw [hr]
      rfl
    · have hkeys : ∀ s : Record, (if s.key == key then s.add o else s).key = s.key := fun s => by
        split
        · exact Record.key_add o s
        · rfl
      have hany : (f.records.any fun s => s.key == key) = true :=
        List.any_eq_true.mpr ⟨r, List.mem_of_getElem? hr, by simpa using hkey⟩
      rw [hset, sortInto, if_pos hany, List.getElem?_map, h k j]
      cases f.records[j]? with
      | none => simp
      | some s => simp only [Option.map_some, Option.some.injEq, exists_eq_left', hkeys]
  | none =>
    have hnew : ∀ s ∈ f.records, s.key ≠ key := fun s hs heq => by
      obtain ⟨j, hj⟩ := List.mem_iff_getElem?.mp hs
      rw [(h key j).mpr ⟨s, hj, heq⟩] at hi
      cases hi
    have hany : ¬ (f.records.any fun s => s.key == key) = true := by
      simpa using hnew
    refine ⟨⟨f.numbers.put key f.records.length,
      f.records ++ [Record.opening f.records.length key o]⟩, ?_, ?_, fun k j => ?_⟩
    · rw [file, hi]
      rfl
    · rw [sortInto, if_neg hany]
    · rw [Dictionary.get?_put]
      by_cases hk : k = key
      · subst hk
        rw [if_pos rfl, Option.some.injEq]
        constructor
        · rintro rfl
          exact ⟨_, List.getElem?_concat_length, key_opening _ _ _⟩
        · rintro ⟨s, hs, heq⟩
          by_contra hj
          rw [List.getElem?_append] at hs
          split at hs
          · exact hnew s (List.mem_of_getElem? hs) heq
          · rw [List.getElem?_singleton, if_neg (by omega)] at hs
            cases hs
      · rw [if_neg hk, h k j, List.getElem?_append]
        split
        · rfl
        · rename_i hj
          rw [List.getElem?_eq_none (by omega), List.getElem?_singleton]
          split <;> simp [key_opening, Ne.symm hk]

end Filing

/-- The records of a page, filed under their numbers. -/
theorem recordsFrom_ok : ∀ (os : List Occurrence) {f : Filing} (n : Nat), f.Filed →
    recordsFrom n f os = .ok (CiteMarkup.recordsFrom n f.records os)
  | [], f, n, _ => rfl
  | o :: os, f, n, h => by
    rw [recordsFrom, CiteMarkup.recordsFrom, identity?]
    cases hname : o.name.bind Text.nonempty? with
    | none =>
      obtain ⟨f', hfile, hrecords, h'⟩ := Filing.file_ok h (namelessIdentity n) o
      change (f.file (namelessIdentity n) o >>= _) = _
      rw [hfile, ok_bind, recordsFrom_ok os _ h', hrecords]
      rfl
    | some name =>
      obtain ⟨_, -, hwritten⟩ := Option.bind_eq_some_iff.mp hname
      obtain ⟨f', hfile, hrecords, h'⟩ := Filing.file_ok h (identityOf name o.group) o
      change (identity name o.group >>= fun key => f.file key o >>= _) = _
      rw [identity_ok (nonempty?_eq_some.mp hwritten).2, ok_bind, hfile, ok_bind,
        recordsFrom_ok os _ h', hrecords]
      rfl

theorem model_ok (t : Text) (listNames : List Text) :
    model t listNames = .ok (Model.ofText t listNames) := by
  rw [model, page_ok, ok_bind, tokens_ok, ok_bind]
  change (recordsFrom 0 {} _ >>= _) = _
  rw [recordsFrom_ok _ _ Filing.filed_empty]
  rfl

/-! ## 4. What a reader learns -/

theorem insertStable_map {le : α → α → Bool} {le' : β → β → Bool} (f : α → β)
    (h : ∀ a b, le' (f a) (f b) = le a b) (x : α) :
    ∀ l : List α, insertStable le' (f x) (l.map f) = (insertStable le x l).map f
  | [] => rfl
  | y :: r => by
    rw [List.map_cons, insertStable, insertStable, h]
    split
    · rfl
    · rw [insertStable_map f h x r, List.map_cons]

/-- Elements can be put in order before or after they are changed. -/
theorem sortByStart_map (start : β → Nat) (f : α → β) : ∀ l : List α,
    sortByStart start (l.map f) = (sortByStart (fun a => start (f a)) l).map f
  | [] => rfl
  | x :: r => by
    have ih := sortByStart_map start f r
    rw [sortByStart, sortByStart] at ih
    rw [List.map_cons, sortByStart, sortByStart, sortStable, sortStable, ih,
      insertStable_map f fun _ _ => rfl]

/-- **The catalogue finds a first occurrence of each reference.** -/
theorem catalogue_ok (t : Text) (listNames : List Text) :
    catalogue t listNames = .ok (Reference.catalogue t listNames) := by
  have hfirst : ∀ r ∈ (Model.ofText t listNames).records,
      (do return (← get .noOccurrence r.firstStart?, r) : Guarded (Nat × Record)) =
        .ok (r.firstStart?.getD 0, r) := by
    intro r hr
    obtain ⟨occ, rest, hocc⟩ := List.exists_cons_of_ne_nil (occurrences_ne_nil hr)
    rw [Record.firstStart?, hocc]
    rfl
  rw [catalogue, model_ok, ok_bind, mapM_eq_map hfirst, ok_bind, sortByStart_map, List.map_map]
  rfl

theorem bodies_ok (t : Text) (listNames : List Text) :
    bodies t listNames = .ok (Reference.bodies t listNames) := by
  rw [bodies, model_ok]
  rfl

/-! ## 5. Merges -/

section Settled

variable {m : Model} {p : Page} {names : List Text} {mode : Mode} {r : Record}
variable (h : m.Accounts p names) (hs : m.Settled)
include h hs

/-- **A merge leads to a record in one step at most.** -/
theorem find_ok (hr : r ∈ m.records) : find m r.index = .ok (m.canonical r) := by
  rw [find, h.record?_index hr, get_some, ok_bind, follow]
  by_cases hself : r.canonical = r.index
  · rw [if_neg (by simp [hself]), Model.canonical_self hself]
    rfl
  · rcases hs r hr with hown | ⟨s, hsm, hsself, hpoint, -, -⟩
    · exact absurd hown hself
    · have hlen : 0 < m.records.length := List.length_pos_of_mem hr
      obtain ⟨n, hn⟩ := Nat.exists_eq_add_of_lt hlen
      rw [if_pos (by simpa using hself), hpoint, h.record?_index hsm, get_some, ok_bind, hn,
        follow, if_neg (by simp [hsself]), h.canonical_of_points hr hsm hsself hpoint]
      rfl

omit h hs in
/-- A pointer to a record that is not there is a fault. -/
example : find ⟨Page.bare [], [⟨0, [], none, none, [], [], [], 1, .inline, none, rfl⟩], [], []⟩ 0 =
    .error (.noRecord 1) := rfl

theorem merged_ok (r : Record) : merged m r = .ok (m.merged r) := by
  have hfound : ∀ s ∈ m.records, (do return (s, ← find m s.index) : Guarded (Record × Record)) =
      .ok (s, m.canonical s) := fun s hsm => by
    rw [find_ok h hs hsm]
    rfl
  rw [merged, mapM_eq_map hfound, ok_bind, List.filter_map, List.map_map]
  exact congrArg Except.ok (List.map_id _)

theorem usesOf_ok (r : Record) : usesOf m r = .ok (m.usesOf r) := by
  rw [usesOf, merged_ok h hs]
  rfl

theorem locateRecord_ok (r : Record) :
    locateRecord m mode r = .ok (m.locateRecord mode r) := by
  rw [locateRecord, Model.locateRecord, usesOf_ok h hs]
  split <;> rfl

theorem place_ok : place m mode = .ok (m.place mode) := by
  rw [place, mapM_eq_map fun r _ => locateRecord_ok h hs r]
  rfl

end Settled

end CiteMarkup.Guarded
