import CiteMarkup.Proofs.Order.Stable
import CiteMarkup.Proofs.Reference.Survey
import CiteMarkup.Transform.Plan
/-!
# How definitions are shared out among output lists

The first list of a group gets the definitions of the group, further ones get none, and groups
without a list get a new one at the end of the page.  So each definition has one share
(`shares_perm`).  A list is rebuilt by replacing one stretch of it, which takes in the old
definitions and leaves what stands around them (`updated_eq`).
-/

namespace CiteMarkup

/-! ## 1. Shares -/

/-- The output lists with the definitions that each of them gets; `served` are the groups
that have had their list. -/
def listShares (entries : List ListEntry) :
    (served : List (Option Text)) → List Template → List (Template × List ListEntry)
  | _, [] => []
  | served, t :: ts =>
    (t, if served.contains t.group? then [] else entries.filter (·.group = t.group?)) ::
      listShares entries (served ++ [t.group?]) ts

/-- The groups without a list, with the definitions that a new list for each of them gets. -/
def newShares (entries : List ListEntry) (served : List (Option Text)) :
    List (Option Text × List ListEntry) :=
  ((entries.map (·.group)).eraseDups.filter fun g => !served.contains g).map fun g =>
    (g, entries.filter (·.group = g))

variable {entries : List ListEntry}

theorem listEdits_eq (p : Page) (style : ListStyle) (entries : List ListEntry) :
    ∀ (ts : List Template) (served : List (Option Text)),
      p.listEdits style entries served ts =
        (listShares entries served ts).flatMap fun s =>
          p.change s.1.span (s.1.updated p.raw style s.2)
  | [], served => rfl
  | t :: ts, served => by
    rw [Page.listEdits, listShares, List.flatMap_cons, listEdits_eq p style entries ts]

theorem newLists_eq (style : ListStyle) (entries : List ListEntry)
    (served : List (Option Text)) :
    newLists style entries served =
      (newShares entries served).map fun s => newList s.1 style s.2 := by
  simp [newLists, newShares, Function.comp_def]

/-- Each list has one share. -/
theorem listShares_fst (entries : List ListEntry) :
    ∀ (ts : List Template) (served : List (Option Text)),
      (listShares entries served ts).map (·.1) = ts
  | [], served => rfl
  | t :: ts, served => by
    rw [listShares, List.map_cons, listShares_fst entries ts]

theorem exists_listShare (entries : List ListEntry) (served : List (Option Text))
    {ts : List Template} {t : Template} (ht : t ∈ ts) :
    ∃ s ∈ listShares entries served ts, s.1 = t := by
  rw [← listShares_fst entries ts served] at ht
  exact List.mem_map.mp ht

/-- A list gets definitions of its group. -/
theorem mem_of_mem_listShares {entries : List ListEntry} : ∀ {ts : List Template}
    {served : List (Option Text)} {s : Template × List ListEntry},
    s ∈ listShares entries served ts → s.1 ∈ ts ∧ ∀ d ∈ s.2, d ∈ entries ∧ d.group = s.1.group?
  | [], _, _, hs => by cases hs
  | t :: ts, served, s, hs => by
    rw [listShares, List.mem_cons] at hs
    rcases hs with rfl | hs
    · refine ⟨List.mem_cons_self, fun d hd => ?_⟩
      split at hd
      · cases hd
      · simpa using hd
    · obtain ⟨hmem, hall⟩ := mem_of_mem_listShares hs
      exact ⟨List.mem_cons_of_mem _ hmem, hall⟩

/-- A list that is added is for a group without one, and gets the definitions of the group. -/
theorem mem_of_mem_newShares {entries : List ListEntry} {served : List (Option Text)}
    {s : Option Text × List ListEntry} (hs : s ∈ newShares entries served) :
    s.1 ∉ served ∧ s.2 ≠ [] ∧ ∀ d ∈ s.2, d ∈ entries ∧ d.group = s.1 := by
  obtain ⟨g, hg, rfl⟩ := List.mem_map.mp hs
  obtain ⟨hg, hserved⟩ := List.mem_filter.mp hg
  obtain ⟨d, hd, rfl⟩ := List.mem_map.mp (List.mem_eraseDups.mp hg)
  refine ⟨by simpa using hserved, ?_, fun d hd => by simpa using hd⟩
  exact List.ne_nil_of_mem (List.mem_filter.mpr ⟨hd, by simp⟩)

/-- A list that is added gets all that is there for its group. -/
theorem snd_of_mem_newShares {entries : List ListEntry} {served : List (Option Text)}
    {s : Option Text × List ListEntry} (hs : s ∈ newShares entries served) :
    s.2 = entries.filter (·.group = s.1) := by
  obtain ⟨g, -, rfl⟩ := List.mem_map.mp hs
  rfl

/-- No list is added for a group that has one. -/
theorem not_mem_of_mem_newShares {entries : List ListEntry} {served : List (Option Text)}
    {g : Option Text} (hg : g ∈ (newShares entries served).map (·.1)) : g ∉ served := by
  obtain ⟨share, hs, rfl⟩ := List.mem_map.mp hg
  exact (mem_of_mem_newShares hs).1

/-- One list is added for a group. -/
theorem nodup_newShares (entries : List ListEntry) (served : List (Option Text)) :
    ((newShares entries served).map (·.1)).Nodup := by
  have hgroups : (newShares entries served).map (·.1) =
      (entries.map (·.group)).eraseDups.filter fun g => !served.contains g := by
    rw [newShares, List.map_map]
    exact List.map_id _
  rw [hgroups]
  exact (nodup_eraseDups _).filter _

/-! ## 2. Nothing is lost or doubled -/

/-- A list filtered by one of two conditions that exclude each other is put together from
the two. -/
theorem filter_or_perm {α : Type} {a b : α → Bool} (hab : ∀ x, a x = true → b x = false)
    (l : List α) : (l.filter fun x => a x || b x).Perm (l.filter a ++ l.filter b) := by
  have h := (List.filter_append_perm a (l.filter fun x => a x || b x)).symm
  rw [List.filter_filter, List.filter_filter] at h
  refine h.trans (.of_eq ?_)
  congr 1
  · refine List.filter_congr fun x _ => ?_
    cases a x <;> simp
  · refine List.filter_congr fun x _ => ?_
    cases ha : a x with
    | true => simp [hab x ha]
    | false => simp

/-- The lists of the page hold the definitions of their groups, but for the groups that have
been served before. -/
theorem listShares_perm (entries : List ListEntry) :
    ∀ (ts : List Template) (served : List (Option Text)),
      ((listShares entries served ts).flatMap (·.2)).Perm
        (entries.filter fun e => (ts.map (·.group?)).contains e.group &&
          !served.contains e.group)
  | [], served => by simp [listShares]
  | t :: ts, served => by
    have ih := listShares_perm entries ts (served ++ [t.group?])
    rw [listShares, List.flatMap_cons]
    by_cases hs : served.contains t.group? = true
    · -- the group has been served: this list adds nothing to what the others hold
      rw [if_pos hs, List.nil_append]
      refine ih.trans (.of_eq (List.filter_congr fun e _ => ?_))
      by_cases he : e.group = t.group?
      · simp only [List.contains_eq_mem, decide_eq_true_eq] at hs
        simp [he, hs]
      · simp [he]
    · rw [if_neg hs]
      refine ((ih.append_left _).trans (filter_or_perm ?_ entries).symm).trans
        (.of_eq (List.filter_congr fun e _ => ?_))
      · intro e he
        simp only [decide_eq_true_eq] at he
        simp [he]
      · simp only [List.contains_eq_mem, decide_eq_true_eq] at hs
        by_cases he : e.group = t.group?
        · simp [he, hs]
        · simp [he]

/-- Sharing a list out by a key, among keys without repetition, takes what has one of them. -/
theorem flatMap_filter_perm {α β : Type} [DecidableEq β] (key : α → β) {keys : List β}
    (hn : keys.Nodup) (l : List α) :
    (keys.flatMap fun k => l.filter (key · = k)).Perm
      (l.filter fun x => keys.contains (key x)) := by
  induction keys with
  | nil => simp
  | cons k keys ih =>
    obtain ⟨hk, hn⟩ := List.nodup_cons.mp hn
    rw [List.flatMap_cons]
    refine (((ih hn).append_left _).trans (filter_or_perm ?_ l).symm).trans
      (.of_eq (List.filter_congr fun x _ => ?_))
    · intro x hx
      simp only [decide_eq_true_eq] at hx
      simp [hx, hk]
    · simp

/-- New lists hold the definitions of the groups that have none. -/
theorem newShares_perm (entries : List ListEntry) (served : List (Option Text)) :
    ((newShares entries served).flatMap (·.2)).Perm
      (entries.filter fun e => !served.contains e.group) := by
  rw [newShares, List.flatMap_map]
  refine (flatMap_filter_perm (·.group) (List.Nodup.filter _ (nodup_eraseDups _)) entries).trans
    (.of_eq (List.filter_congr fun e he => ?_))
  have hmem : e.group ∈ entries.map (·.group) := List.mem_map_of_mem he
  simp [hmem]

/-- **Each definition has one share**, in a list of the page or in a new one. -/
theorem shares_perm (entries : List ListEntry) (ts : List Template) :
    ((listShares entries [] ts).flatMap (·.2) ++
      (newShares entries (ts.map (·.group?))).flatMap (·.2)).Perm entries := by
  refine ((listShares_perm entries ts []).append
    (newShares_perm entries (ts.map (·.group?)))).trans ?_
  refine List.Perm.trans (.of_eq ?_) (List.filter_append_perm
    (fun e : ListEntry => (ts.map (·.group?)).contains e.group) entries)
  simp

/-! ## 3. A rebuilt list -/

theorem indexOf?_le {c : Char} : ∀ {t : Text} {e : Nat}, t[e]? = some c →
    ∃ i, Text.indexOf? [c] t = some i ∧ i ≤ e
  | [], e, h => by simp at h
  | d :: r, e, h => by
    rw [Text.indexOf?]
    split
    · exact ⟨0, rfl, Nat.zero_le _⟩
    · rename_i hd
      cases e with
      | zero =>
        obtain rfl : d = c := by simpa using h
        simp [Text.startsWith] at hd
      | succ e =>
        obtain ⟨i, hi, hle⟩ := indexOf?_le (t := r) (e := e) (by simpa using h)
        exact ⟨i + 1, by rw [hi]; rfl, by omega⟩

theorem infix_join {sep t : Text} : ∀ {parts : List Text}, t ∈ parts → t <:+: Text.join sep parts
  | [a], h => by
    have hone : Text.join sep [a] = t := by
      rw [List.mem_singleton.mp h, Text.join, List.intercalate_singleton]
    exact ⟨[], [], by rw [List.nil_append, List.append_nil, hone]⟩
  | a :: b :: parts, h => by
    rw [Text.join, List.intercalate_cons_cons]
    rcases List.mem_cons.mp h with rfl | h
    · rw [List.append_assoc]
      exact (List.prefix_append _ _).isInfix
    · exact (infix_join h).trans (List.suffix_append _ _).isInfix

theorem ListStyle.infix_value (style : ListStyle) {d : ListEntry} {own : List ListEntry}
    (hd : d ∈ own) : style.write d <:+: style.value own := by
  have harrange : d ∈ style.arrange own := by
    unfold arrange
    split
    · exact mem_sortStable.mpr hd
    · exact hd
  have hjoin : style.write d <:+: Text.join ['\n'] ((style.arrange own).map style.write) :=
    infix_join (List.mem_map_of_mem harrange)
  exact hjoin.trans ⟨['\n'], ['\n'], rfl⟩

theorem infix_refsParam (value : Text) : value <:+: refsParam value :=
  List.infix_append _ _ _

/-- The definitions that a list gets stand in it one behind the other. -/
theorem Template.value_infix_updated (t : Template) (page : Text) (style : ListStyle)
    {own : List ListEntry} (hown : own ≠ []) :
    style.value own <:+: t.updated page style own := by
  have hempty : ¬ own.isEmpty = true := by simpa using hown
  unfold updated
  split
  · rw [if_neg hempty]
    exact (infix_refsParam _).trans (List.suffix_append _ _).isInfix
  · rw [if_neg hempty, withRefs]
    exact List.infix_append _ _ _

theorem value_infix_newList (group : Option Text) (style : ListStyle) (own : List ListEntry) :
    style.value own <:+: newList group style own :=
  (infix_refsParam _).trans (List.suffix_append _ _).isInfix

namespace Page.IsInvocation

variable {p : Page} {t : Template} (hi : p.IsInvocation t)
include hi

variable {refs : Param}

/-- The parameter that holds definitions, with its sign, its value and its end. -/
theorem bounds_of_refs (hrefs : t.refs? = some refs) :
    (∃ e, p.seen[t.paramsStart + refs.span.start + e]? = some '=' ∧
      refs.span.start + e + 1 ≤ refs.valueStart) ∧
      refs.valueStart + refs.value.length ≤ refs.span.stop ∧
      t.paramsStart + refs.span.stop + 2 ≤ t.span.stop := by
  have hmem : refs ∈ t.params := List.mem_reverse.mp (List.mem_of_find?_eq_some hrefs)
  have hkey : refs.isKeyed = true := by
    have h := List.find?_some hrefs
    simp only [Param.hasKey, Bool.and_eq_true] at h
    exact h.1
  obtain ⟨-, hval, hstop⟩ := hi.bounds_of_mem_params hmem
  rw [hi.params_eq] at hmem
  obtain ⟨e, hseen, hle⟩ := Page.sign_of_mem_params hmem hkey
  obtain ⟨-, hseen⟩ := Text.getElem?_of_slice hseen
  exact ⟨⟨e, by rwa [Nat.add_assoc], hle⟩, hval, hstop⟩

/-- **The search for the sign succeeds**: the first sign as written stands where the readers
have seen one, or before that. -/
theorem exists_sign (hv : p.IsVeiled) (hrefs : t.refs? = some refs) :
    ∃ i, t.signOf? p.raw refs = some i ∧ refs.span.start + i + 1 ≤ refs.valueStart := by
  obtain ⟨⟨e, hseen, hle⟩, hval, hstop⟩ := hi.bounds_of_refs hrefs
  have hraw : (p.raw.slice (t.paramsStart + refs.span.start)
      (t.paramsStart + refs.span.stop))[e]? = some '=' := by
    rw [Text.getElem?_slice, if_pos (by omega)]
    exact hv hseen (by decide)
  obtain ⟨i, hi', hie⟩ := indexOf?_le hraw
  exact ⟨i, hi', by omega⟩

/-- **A rebuilt list.**  One stretch of the list goes, the old definitions with it, and the
new ones stand in its place; what stands around the stretch stays. -/
theorem updated_eq (hv : p.IsVeiled) {s : Span} (hs : t.definitionSpan? = some s)
    (style : ListStyle) (own : List ListEntry) :
    ∃ a b, t.span.start ≤ a ∧ a ≤ s.start ∧ s.stop ≤ b ∧ b ≤ t.span.stop ∧
      t.updated p.raw style own = p.raw.slice t.span.start a ++
        (if own.isEmpty then [] else style.value own) ++ p.raw.slice b t.span.stop := by
  simp only [Template.definitionSpan?, Option.bind_eq_some_iff, Option.ite_none_left_eq_some,
    Option.some.injEq] at hs
  obtain ⟨refs, hrefs, -, rfl⟩ := hs
  obtain ⟨-, hval, hstop⟩ := hi.bounds_of_refs hrefs
  obtain ⟨i, hsign, hle⟩ := hi.exists_sign hv hrefs
  have hroom := hi.room
  have hrefs' : t.refs? = some refs := hrefs
  rw [Template.updated, hrefs']
  simp only [Span.start_ofLength, Span.stop_ofLength]
  cases hown : own.isEmpty with
  | true =>
    rw [if_pos rfl, if_pos rfl, Template.withoutRefs]
    simp only [List.append_nil]
    exact ⟨_, _, by omega, by omega, by omega, by omega, rfl⟩
  | false =>
    rw [if_neg (by simp), if_neg (by simp), Template.withRefs, hsign, Option.getD_some]
    exact ⟨_, _, by omega, by omega, by omega, by omega, rfl⟩

end Page.IsInvocation
end CiteMarkup
