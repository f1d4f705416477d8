import CiteMarkup.Proofs.Transform.Regathered
/-!
# Lists after a move

After a move the lists of the page are those that it has had, each with its share of the
definitions, and those that have been added (`forall₂_lists`).  When bodies move again, each list
gets what stands in it (`outputEdits_again`), and no list is added (`addedLists_again`).
-/

namespace CiteMarkup

/-! ## 1. Portions -/

/-- What the lists of groups get, one after the other; `served` are the groups that have had their
list. -/
def portions (entries : List ListEntry) :
    (served : List (Option Text)) → List (Option Text) → List (List ListEntry)
  | _, [] => []
  | served, g :: gs =>
    (if served.contains g then [] else entries.filter (·.group = g)) ::
      portions entries (served ++ [g]) gs

theorem map_snd_listShares (entries : List ListEntry) : ∀ (ts : List Template)
    (served : List (Option Text)), (listShares entries served ts).map (·.2) =
      portions entries served (ts.map (·.group?))
  | [], _ => rfl
  | t :: ts, served => by
    rw [listShares, List.map_cons, map_snd_listShares entries ts]
    rfl

theorem portions_append (entries : List ListEntry) : ∀ (gs hs served : List (Option Text)),
    portions entries served (gs ++ hs) =
      portions entries served gs ++ portions entries (served ++ gs) hs
  | [], _, served => by rw [List.append_nil]; rfl
  | g :: gs, hs, served => by
    rw [List.cons_append, portions, portions_append entries gs, List.append_assoc]
    rfl

/-- Groups that have had no list get all that is theirs. -/
theorem portions_of_nodup (entries : List ListEntry) : ∀ {gs served : List (Option Text)},
    gs.Nodup → (∀ g ∈ gs, g ∉ served) →
      portions entries served gs = gs.map fun g => entries.filter (·.group = g)
  | [], _, _, _ => rfl
  | g :: gs, served, hn, hserved => by
    obtain ⟨hg, hgs⟩ := List.nodup_cons.mp hn
    have hrest : ∀ h ∈ gs, h ∉ served ++ [g] := by
      intro h hh hmem
      rcases List.mem_append.mp hmem with hmem | hmem
      · exact hserved h (List.mem_cons_of_mem _ hh) hmem
      · exact hg (List.mem_singleton.mp hmem ▸ hh)
    rw [portions, portions_of_nodup entries hgs hrest, if_neg]
    · rfl
    · simpa using hserved g List.mem_cons_self

/-- Portions come out alike if the groups get alike. -/
theorem map_portions_congr {β : Type} {entries entries' : List ListEntry}
    {F : List ListEntry → β} : ∀ {gs served : List (Option Text)},
    (∀ g ∈ gs, F (entries'.filter (·.group = g)) = F (entries.filter (·.group = g))) →
      (portions entries' served gs).map F = (portions entries served gs).map F
  | [], _, _ => rfl
  | g :: gs, served, h => by
    rw [portions, portions, List.map_cons, List.map_cons,
      map_portions_congr fun x hx => h x (List.mem_cons_of_mem _ hx)]
    split
    · rfl
    · rw [h g List.mem_cons_self]

/-- The lists that a page has in the end, with their groups and what they get. -/
def finalShares (entries : List ListEntry) (ts : List Template) :
    List (Option Text × List ListEntry) :=
  (listShares entries [] ts).map (fun share => (share.1.group?, share.2)) ++
    newShares entries (ts.map (·.group?))

theorem map_group?_listShares (entries : List ListEntry) (ts : List Template)
    (served : List (Option Text)) :
    (listShares entries served ts).map (fun share => share.1.group?) = ts.map (·.group?) := by
  conv_rhs => rw [← listShares_fst entries ts served, List.map_map]
  rfl

theorem map_fst_finalShares (entries : List ListEntry) (ts : List Template) :
    (finalShares entries ts).map (·.1) =
      ts.map (·.group?) ++ (newShares entries (ts.map (·.group?))).map (·.1) := by
  rw [finalShares, List.map_append, List.map_map, ← map_group?_listShares entries ts []]
  rfl

theorem map_snd_finalShares (entries : List ListEntry) (ts : List Template) :
    (finalShares entries ts).map (·.2) =
      portions entries [] ((finalShares entries ts).map (·.1)) := by
  have hnew : (newShares entries (ts.map (·.group?))).map (·.2) =
      portions entries (ts.map (·.group?)) ((newShares entries (ts.map (·.group?))).map (·.1)) := by
    rw [portions_of_nodup entries (nodup_newShares entries _) fun g hg =>
      not_mem_of_mem_newShares hg, List.map_map]
    exact List.map_congr_left fun share hs => snd_of_mem_newShares hs
  rw [map_fst_finalShares, portions_append, List.nil_append, ← hnew, ← map_snd_listShares,
    finalShares, List.map_append, List.map_map]
  rfl

/-! ## 2. Signs of lists -/

/-- The sign is that of an output list. -/
def Sign.isList (σ : Sign) : Bool :=
  match σ.mark with
  | .list _ => true
  | .tag _ | .chain _ | .locator _ => false

section Signs

variable {names : List Text} {p : Page} {σ : Sign} {g name group : Option Text}
variable {ds : List ListEntry}

/-- The sign is that of a list with a share of the definitions in it. -/
def Sign.HoldsShare (σ : Sign) (names : List Text) (style : ListStyle)
    (share : Option Text × List ListEntry) : Prop :=
  σ.Lists names style.normalize share.1 (style.arrange share.2)

theorem Sign.Lists.isList {normalize : Bool} (h : σ.Lists names normalize g ds) :
    σ.isList = true := by
  obtain ⟨name, segments, -, hσ⟩ := h
  rw [hσ]
  rfl

theorem Sign.IsUseOf.isList {normalize chained : Bool}
    (h : σ.IsUseOf normalize chained name group) : σ.isList = false := by
  rw [Sign.isList]
  split
  · rename_i l hl
    exact absurd hl (h.unlisted l)
  · rfl
  · rfl
  · rfl

/-- What is gathered from lists only. -/
theorem flatMap_listsAmong {α : Type} {f : Token → List α} : ∀ {ks : List Token},
    (∀ k ∈ ks, (∀ l, k ≠ .list l) → f k = []) →
      ks.flatMap f = (listsAmong ks).flatMap fun l => f (.list l)
  | [], _ => rfl
  | k :: ks, h => by
    have ih := flatMap_listsAmong fun l hl => h l (List.mem_cons_of_mem _ hl)
    have hnone := h k List.mem_cons_self
    cases k with
    | list l => rw [List.flatMap_cons, ih]; rfl
    | tag tag => rw [List.flatMap_cons, ih, hnone (by simp)]; rfl
    | chain c => rw [List.flatMap_cons, ih, hnone (by simp)]; rfl
    | locator c => rw [List.flatMap_cons, ih, hnone (by simp)]; rfl

/-- The signs of the lists of a page. -/
theorem filter_isList_signs (names : List Text) (t : Text) :
    (signs names t).filter Sign.isList =
      (listsAmong ((Page.ofText t).tokens names)).map fun l => (Page.ofText t).sign (.list l) := by
  rw [signs, List.map_eq_flatMap, List.filter_flatMap, flatMap_listsAmong, List.map_eq_flatMap]
  · rfl
  · intro k _ hk
    cases k with
    | list l => exact absurd rfl (hk l)
    | tag tag => rfl
    | chain c => rfl
    | locator c => rfl

end Signs

/-! ## 3. Rebuilding a list again -/

section Rebuilding

variable {names : List Text} {t : Text} {l : Template} {g : Option Text}
variable {ds own : List ListEntry} {style : ListStyle}

/-- The sign of a list says what its group is. -/
theorem group?_of_lists {normalize : Bool}
    (h : ((Page.ofText t).sign (.list l)).Lists names normalize g ds) :
    l.group? = g := by
  obtain ⟨name, segments, hlist, hsign⟩ := h
  have hhome : l.home = Template.ofWritten name segments :=
    Token.list.inj (congrArg Sign.mark hsign)
  have hgroup : l.home.group? = l.group? := rfl
  rw [← hgroup, hhome, hlist.group]

/-- A list that is read away from its place stands where its text does. -/
theorem shift_home (h : l.span.start ≤ l.paramsStart) : l.home.shift l.span.start = l := by
  obtain ⟨⟨start, stop, ordered⟩, name, paramText, paramsStart, params⟩ := l
  simp only at h
  simp only [Template.home, Template.shift, Span.home, Span.shift, Span.ofLength]
  congr 2
  · omega
  · omega

/-- **A list that gets what stands in it is left as it is.** -/
theorem updated_of_lists (hstop : l.span.stop ≤ t.length)
    (h : ((Page.ofText t).sign (.list l)).Lists names style.normalize g ds)
    (hlines : (style.arrange own).map (·.text style.normalize) =
      ds.map (·.text style.normalize)) :
    l.updated t style own = t.cut l.span := by
  obtain ⟨name, segments, hlist, hsign⟩ := h
  have hhome : l.home = Template.ofWritten name segments :=
    Token.list.inj (congrArg Sign.mark hsign)
  have htext : t.cut l.span = templateText name (barred segments) := hlist.text
  have hparams : l.span.start ≤ l.paramsStart := by
    have hpos : l.paramsStart - l.span.start = name.length + 2 + min 1 segments.length :=
      congrArg Template.paramsStart hhome
    omega
  have hstart : (t.take l.span.start).length = l.span.start :=
    List.length_take_of_le (Nat.le_trans l.span.ordered hstop)
  have hpage : t = t.take l.span.start ++
      (templateText name (barred segments) ++ t.drop l.span.stop) := by
    have hcut : t.cut l.span ++ t.drop l.span.stop = t.drop l.span.start := by
      rw [← Text.slice_length, Text.cut, Text.slice_append_slice t l.span.ordered hstop,
        Text.slice_length]
    rw [← htext, hcut, List.take_append_drop]
  have hplace : l = (Template.ofWritten name segments).shift (t.take l.span.start).length := by
    rw [← hhome, hstart, shift_home hparams]
  have hagain := updated_of_holds hlist.toIsWritable hlist.holds rfl hlines
    (t.take l.span.start) (t.drop l.span.stop)
  rw [htext, ← hagain, ← hpage, ← hplace]

end Rebuilding

/-! ## 4. The lists of the new page -/

theorem forall₂_flatMap {α β γ : Type} {R : β → γ → Prop} {f : α → List β} {g : α → γ} :
    ∀ {l : List α}, (∀ a ∈ l, ∃ b, f a = [b] ∧ R b (g a)) →
      List.Forall₂ R (l.flatMap f) (l.map g)
  | [], _ => .nil
  | a :: l, h => by
    obtain ⟨b, hb, hR⟩ := h a List.mem_cons_self
    rw [List.flatMap_cons, hb, List.map_cons]
    exact .cons hR (forall₂_flatMap fun x hx => h x (List.mem_cons_of_mem _ hx))

namespace Model
namespace IsSteady

variable {m m' : Model} {names : List Text} {t t' w : Text} {o : Options}
variable {mode : Mode}
variable (hm : m.IsSteady names t o) (h : m.IsFiled mode (Page.ofText t) names)
variable (hmode : mode ≠ .keep) (hname : isNameOf names (canonicalName "reflist".toList) = true)
variable (ht' : Edit.applyAll t (m.plan o mode).1.edits = t')
include hm h hmode hname ht'

/-- **The lists of the new page** are those of the old one with their shares, and those that are
added. -/
theorem forall₂_lists :
    List.Forall₂ (fun l share =>
        ((Page.ofText t').sign (.list l)).HoldsShare names o.listStyle share)
      (listsAmong ((Page.ofText t').tokens names)) (finalShares m.listEntries m.lists) := by
  have hlists : listsAmong ((Page.ofText t).tokens names) =
      (listShares m.listEntries [] m.lists).map (·.1) := by
    rw [listShares_fst, h.lists_eq, Page.survey_eq]
  have hone : ∀ {u : Text} {share : Option Text × List ListEntry},
      (∃ σ, signs names u = [σ] ∧ σ.HoldsShare names o.listStyle share) →
        ∃ σ, (signs names u).filter Sign.isList = [σ] ∧ σ.HoldsShare names o.listStyle share := by
    rintro u share ⟨σ, hsigns, hσ⟩
    have hlist : σ.isList = true := Sign.Lists.isList hσ
    refine ⟨σ, ?_, hσ⟩
    rw [hsigns, List.filter_cons_of_pos hlist]
    rfl
  rw [← List.forall₂_map_left_iff
      (R := fun (σ : Sign) share => σ.HoldsShare names o.listStyle share),
    ← filter_isList_signs, ← ht', hm.signs_edited h hmode hname, List.filter_append,
    List.filter_flatMap, List.filter_flatMap, flatMap_listsAmong, hlists, List.flatMap_map,
    finalShares]
  · refine List.rel_append ?_ ?_
    · refine forall₂_flatMap fun share hs => hone ?_
      exact hm.signs_left_list h hmode hname hs
    · have hnew : List.Forall₂ (fun (σ : Sign) share => σ.HoldsShare names o.listStyle share) _
          ((newShares m.listEntries (m.lists.map (·.group?))).map id) :=
        forall₂_flatMap fun share hs => hone (hm.signs_newList hname hs)
      rwa [List.map_id] at hnew
  · intro k hk hlist
    cases k with
    | list l => exact absurd rfl (hlist l)
    | tag tag =>
      obtain ⟨σ, hsigns, -, hσ⟩ := hm.signs_left_tag h hmode hname hk
      rw [Token.span_tag, hsigns, List.filter_cons_of_neg (by rw [hσ.isList]; simp)]
      rfl
    | chain c =>
      rw [hm.signs_left_other h hmode hname hk (by simp) (by simp)]
      rfl
    | locator c =>
      rw [hm.signs_left_other h hmode hname hk (by simp) (by simp)]
      rfl

end IsSteady
end Model

/-! ## 5. Lists when bodies move again -/

theorem exists_of_forall₂ {α β γ : Type} {R : α → β → Prop} {f : α → γ} {g : β → γ} {l : List α}
    {u : List β} (h : List.Forall₂ R l u) (hmap : l.map f = u.map g) :
    ∀ a ∈ l, ∃ b ∈ u, R a b ∧ f a = g b := by
  induction h with
  | nil => exact fun a ha => nomatch ha
  | cons hR _ ih =>
    obtain ⟨hfirst, hrest⟩ := List.cons.inj hmap
    intro a ha
    rcases List.mem_cons.mp ha with rfl | ha
    · exact ⟨_, List.mem_cons_self, hR, hfirst⟩
    · obtain ⟨b, hb, hab⟩ := ih hrest a ha
      exact ⟨b, List.mem_cons_of_mem _ hb, hab⟩

namespace Model.IsSteady

variable {m m' : Model} {names : List Text} {t t' w : Text} {o : Options}
variable {mode : Mode}
variable (hm : m.IsSteady names t o) (h : m.IsFiled mode (Page.ofText t) names)
variable (hmode : mode ≠ .keep) (hname : isNameOf names (canonicalName "reflist".toList) = true)
variable (ht' : Edit.applyAll t (m.plan o mode).1.edits = t')
variable (h' : m'.IsFiled mode (Page.ofText t') names)
include hm h hmode hname ht' h'

/-- The groups of the lists on the new page. -/
theorem map_group?_lists :
    m'.lists.map (·.group?) = (finalShares m.listEntries m.lists).map (·.1) := by
  have hlists := hm.forall₂_lists h hmode hname ht'
  rw [h'.lists_eq, Page.survey_eq, ← List.forall₂_eq_eq_eq, List.forall₂_map_left_iff,
    List.forall₂_map_right_iff]
  exact hlists.imp fun l share hl => group?_of_lists hl

/-- The lists on the new page get the shares that they have got. -/
theorem map_text_listShares :
    (listShares m'.listEntries [] m'.lists).map
        (fun share => (o.listStyle.arrange share.2).map (·.text o.normalizeBodies)) =
      (finalShares m.listEntries m.lists).map
        fun share => (o.listStyle.arrange share.2).map (·.text o.normalizeBodies) := by
  have hportions : (portions m'.listEntries []
      ((finalShares m.listEntries m.lists).map (·.1))).map
        (fun own => (o.listStyle.arrange own).map (·.text o.normalizeBodies)) =
      (portions m.listEntries [] ((finalShares m.listEntries m.lists).map (·.1))).map
        fun own => (o.listStyle.arrange own).map (·.text o.normalizeBodies) := by
    refine map_portions_congr fun g hg => ?_
    rw [map_fst_finalShares] at hg
    rw [hm.arranged_again h hmode hname ht' h' hg, List.map_map]
    exact List.map_congr_left fun d hd =>
      hm.text_cleaned (List.mem_filter.mp (mem_arrange.mp hd)).1
  rw [← map_snd_finalShares, ← hm.map_group?_lists h hmode hname ht' h', ← map_snd_listShares,
    List.map_map, List.map_map] at hportions
  exact hportions

/-- **No list is written anew when bodies move again.** -/
theorem outputEdits_again : m'.outputEdits o = [] := by
  have hlists : List.Forall₂ (fun (share' : Template × List ListEntry) share =>
      ((Page.ofText t').sign (.list share'.1)).HoldsShare names o.listStyle share)
      (listShares m'.listEntries [] m'.lists) (finalShares m.listEntries m.lists) := by
    rw [← List.forall₂_map_left_iff (f := Prod.fst)
      (R := fun l share => ((Page.ofText t').sign (.list l)).HoldsShare names o.listStyle share),
      listShares_fst, h'.lists_eq, Page.survey_eq]
    exact hm.forall₂_lists h hmode hname ht'
  rw [outputEdits, listEdits_eq, List.flatMap_eq_nil_iff]
  intro share' hshare'
  obtain ⟨share, -, hholds, htexts⟩ := exists_of_forall₂ hlists
    (hm.map_text_listShares h hmode hname ht' h') share' hshare'
  have hmem : .list share'.1 ∈ (Page.ofText t').tokens names :=
    h'.mem_lists.mp (mem_of_mem_listShares hshare').1
  have hsame : share'.1.updated t' o.listStyle share'.2 =
      t'.cut share'.1.span :=
    updated_of_lists (Page.span_of_mem_tokens hmem).2 hholds htexts
  rw [h'.page_eq, Page.change]
  exact if_pos hsame.symm

/-- **No list is added when bodies move again.** -/
theorem addedLists_again : m'.addedLists o = [] := by
  rw [addedLists, newLists_eq, List.map_eq_nil_iff, newShares, List.map_eq_nil_iff,
    List.filter_eq_nil_iff]
  intro g hg
  obtain ⟨d', hd', rfl⟩ := List.mem_map.mp (List.mem_eraseDups.mp hg)
  obtain ⟨d, hd, rfl⟩ := (hm.mem_listEntries_again h hmode hname ht' h' hm.named).mp hd'
  have hserved : (d.cleaned o.normalizeBodies).group ∈ m'.lists.map (·.group?) := by
    rw [hm.map_group?_lists h hmode hname ht' h', map_fst_finalShares, ListEntry.group_cleaned,
      List.mem_append]
    by_cases hold : d.group ∈ m.lists.map (·.group?)
    · exact .inl hold
    · refine .inr (List.mem_map.mpr ⟨(d.group, _), List.mem_map.mpr ⟨d.group, ?_, rfl⟩, rfl⟩)
      exact List.mem_filter.mpr
        ⟨List.mem_eraseDups.mpr (List.mem_map_of_mem hd), by simpa using hold⟩
  simpa using hserved

end Model.IsSteady
end CiteMarkup
