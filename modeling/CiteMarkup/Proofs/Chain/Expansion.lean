import CiteMarkup.Chain.Expansion
/-!
# What an expansion holds

A chain is taken apart into one piece for each name, and the pieces stand in the expansion as
they are, but for entries that stay in a chain.  So a name that has lost its reference name
leaves a tag with the body of the reference (`fullTag_infix_expand`), unless the chain stays as
it is.  The bodies matter for such names only, so chains of one text whose names stand for the same
are taken apart alike (`Chain.expand_congr`).
-/

namespace CiteMarkup

variable {t w : Text}

/-! ## 1. Pieces -/

/-- A piece of text stands in the whole. -/
theorem infix_joinPieces {template : Text} : ∀ {pieces : List Piece} {waiting : List Entry},
    .text t ∈ pieces → t <:+: joinPieces template waiting pieces
  | [], waiting, h => by cases h
  | .chained entries :: pieces, waiting, h => by
    rw [joinPieces]
    rcases List.mem_cons.mp h with h | h
    · cases h
    · exact infix_joinPieces h
  | .text u :: pieces, waiting, h => by
    rw [joinPieces]
    rcases List.mem_cons.mp h with h | h
    · obtain rfl := Piece.text.inj h
      exact List.infix_append _ _ _
    · exact (infix_joinPieces h).trans (List.suffix_append _ _).isInfix

theorem length_bindEntries : ∀ (names entries : List Entry),
    (bindEntries names entries).length = names.length
  | [], entries => rfl
  | n :: names, entries => by
    rw [bindEntries, List.length_cons, length_bindEntries, List.length_cons]

theorem exists_of_bind_ok {α β ε : Type} {x : Except ε α} {f : α → Except ε β} {b : β}
    (h : x >>= f = .ok b) : ∃ a, x = .ok a ∧ f a = .ok b := by
  cases x with
  | error e => cases h
  | ok a => exact ⟨a, rfl, h⟩

/-- A traversal that succeeds has succeeded everywhere. -/
theorem exists_of_mapM_ok {α β ε : Type} {f : α → Except ε β} {x : α} :
    ∀ {l : List α} {ys : List β}, l.mapM f = .ok ys → x ∈ l → ∃ y ∈ ys, f x = .ok y
  | [], ys, _, hx => by cases hx
  | a :: l, ys, h, hx => by
    rw [List.mapM_cons] at h
    obtain ⟨y, ha, h⟩ := exists_of_bind_ok h
    obtain ⟨zs, hl, h⟩ := exists_of_bind_ok h
    obtain rfl : y :: zs = ys := Except.ok.inj h
    rcases List.mem_cons.mp hx with rfl | hx
    · exact ⟨y, List.mem_cons_self, ha⟩
    · obtain ⟨z, hz, hxz⟩ := exists_of_mapM_ok hl hx
      exact ⟨z, List.mem_cons_of_mem _ hz, hxz⟩

/-! ## 2. A name without a reference name -/

/-- What becomes of it, if the chain does not stay as it is. -/
theorem expandName_nameless {chainText body : Text} {name : Entry} {bound : List Entry}
    {piece : Piece} (hbody : body ≠ [])
    (h : expandName chainText name bound ⟨none, some body⟩ = .ok piece) :
    piece = .text (fullTag none (boundGroup? bound) body false ++ writeLocator bound) := by
  have hsome : (some body).bind Text.nonempty? = some body := by
    cases body with
    | nil => exact absurd rfl hbody
    | cons c r => rfl
  simp only [expandName, hsome] at h
  split at h
  · cases h
  · exact (Except.ok.inj h).symm

namespace Chain

variable {c : Chain} {targets : List Target}

/-- Each target has its piece. -/
theorem exists_piece {target : Target} (hadmits : c.admits targets) (ht : target ∈ targets)
    {result : Option Text} (h : c.expand targets = .ok result) :
    ∃ name bound piece, expandName c.template.written name bound target = .ok piece ∧
      ∃ pieces, piece ∈ pieces ∧
        result = some (joinPieces c.template.chainName [] pieces) := by
  have hlength : (bindEntries (c.plainEntries.filter (·.isName)) c.plainEntries).length =
      targets.length := by
    rw [length_bindEntries, of_decide_eq_true hadmits, names, plainEntries, List.filter_map,
      List.length_map]
    rfl
  obtain ⟨i, hi, rfl⟩ := List.getElem_of_mem ht
  have hzip : ((bindEntries (c.plainEntries.filter (·.isName)) c.plainEntries)[i], targets[i]) ∈
      (bindEntries (c.plainEntries.filter (·.isName)) c.plainEntries).zip targets :=
    List.mem_iff_getElem.mpr ⟨i, by rw [List.length_zip]; omega, List.getElem_zip⟩
  unfold expand at h
  simp only at h
  split at h
  · cases h
  · obtain ⟨pieces, hpieces, hresult⟩ := exists_of_bind_ok h
    obtain ⟨piece, hmem, hpiece⟩ := exists_of_mapM_ok hpieces hzip
    refine ⟨_, _, piece, hpiece, pieces, hmem, ?_⟩
    have hne : pieces.isEmpty = false := by
      cases pieces with
      | nil => cases hmem
      | cons a l => rfl
    rw [hne] at hresult
    exact (Except.ok.inj hresult).symm

/-- **An expansion holds the bodies of references that have lost their names.** -/
theorem fullTag_infix_expand {body : Text} {result : Option Text} (hadmits : c.admits targets)
    (ht : ⟨none, some body⟩ ∈ targets) (hbody : body ≠ [])
    (h : c.expand targets = .ok result) :
    ∃ w group, result = some w ∧ fullTag none group body false <:+: w := by
  obtain ⟨name, bound, piece, hpiece, pieces, hmem, rfl⟩ := exists_piece hadmits ht h
  obtain rfl := expandName_nameless hbody hpiece
  refine ⟨_, boundGroup? bound, rfl, List.IsInfix.trans ?_ (infix_joinPieces hmem)⟩
  exact ⟨[], writeLocator bound, rfl⟩

end Chain

/-! ## 3. A chain that reads alike -/

/-- The target without its body. -/
def Target.bare (t : Target) : Target := ⟨t.name, none⟩

/-- The body of a target matters only if its name has gone. -/
theorem expandName_bare {chainText : Text} {name : Entry} {bound : List Entry} {target : Target}
    (hnamed : target.name.isSome) :
    expandName chainText name bound target.bare = expandName chainText name bound target := by
  obtain ⟨n, body⟩ := target
  obtain ⟨n, rfl⟩ := Option.isSome_iff_exists.mp hnamed
  rfl

theorem mapM_congr {α β ε : Type} {f g : α → Except ε β} :
    ∀ {l : List α}, (∀ a ∈ l, f a = g a) → l.mapM f = l.mapM g
  | [], _ => rfl
  | a :: l, h => by
    rw [List.mapM_cons, List.mapM_cons, h a List.mem_cons_self,
      mapM_congr fun x hx => h x (List.mem_cons_of_mem _ hx)]

namespace Chain

variable {c c' : Chain} {targets targets' : List Target} {useChains : Option Bool}

theorem expand_bare (hnamed : ∀ t ∈ targets, t.name.isSome) :
    c.expand (targets.map Target.bare) = c.expand targets := by
  unfold expand
  simp only
  split
  · rfl
  · congr 1
    rw [List.zip_map_right, List.mapM_map]
    refine mapM_congr fun x hx => ?_
    exact expandName_bare (hnamed x.2 (List.of_mem_zip hx).2)

/-- **Chains of one text whose names stand for the same are taken apart alike.** -/
theorem expand_congr (hname : c'.template.name = c.template.name)
    (hparams : c'.template.paramText = c.template.paramText) (hentries : c'.entries = c.entries)
    (hnamed : ∀ t ∈ targets, t.name.isSome)
    (htargets : targets'.map (·.name) = targets.map (·.name)) :
    c'.expand targets' = c.expand targets := by
  have hbare : ∀ ts : List Target, ts.map Target.bare = (ts.map (·.name)).map (⟨·, none⟩) :=
    fun ts => by rw [List.map_map]; rfl
  have hnamed' : ∀ t ∈ targets', t.name.isSome := by
    intro t ht
    have hmem := List.mem_map_of_mem (f := Target.name) ht
    rw [htargets] at hmem
    obtain ⟨u, hu, heq⟩ := List.mem_map.mp hmem
    rw [← heq]
    exact hnamed u hu
  rw [← expand_bare hnamed', ← expand_bare hnamed, hbare, htargets, ← hbare]
  unfold expand plainEntries Template.written Template.chainName
  rw [hname, hparams, hentries]

theorem isToExpand_congr (hentries : c'.entries = c.entries)
    (htargets : targets'.map (·.name) = targets.map (·.name)) :
    c'.isToExpand useChains targets' = c.isToExpand useChains targets := by
  have hany : ∀ ts : List Target, (ts.any fun t => !(t.name.any fitsChain)) =
      (ts.map (·.name)).any fun n => !(n.any fitsChain) := fun ts => by rw [List.any_map]; rfl
  rw [isToExpand, isToExpand, mustExpand, mustExpand, hany, htargets, ← hany, names, hentries,
    names]

/-- A chain whose names stand for themselves gets no other names. -/
theorem renamingEdits_of_named
    (htargets : targets.map (·.name) = c.names.map fun e => some e.value) :
    c.renamingEdits targets = [] := by
  have hrenamed : renamedNames c targets = [] := by
    rw [renamedNames, List.filterMap_eq_nil_iff]
    rintro ⟨e, target⟩ hmem
    obtain ⟨i, hi⟩ := List.mem_iff_getElem?.mp hmem
    obtain ⟨he, ht⟩ := List.getElem?_zip_eq_some.mp hi
    have hname := congrArg (·[i]?) htargets
    simp only [List.getElem?_map, he, ht, Option.map_some, Option.some.injEq] at hname
    simp [hname]
  rw [renamingEdits, hrenamed]
  rfl

/-- **A chain whose names stand for themselves and fit stays as it is**, if chains may stay. -/
theorem edits_of_fits (hstays : useChains ≠ some false)
    (htargets : targets.map (·.name) = c.names.map fun e => some e.value)
    (hfits : ∀ e ∈ c.names, fitsChain e.value = true) : c.edits useChains targets = ([], []) := by
  have hmust : mustExpand useChains targets = false := by
    rw [mustExpand, Bool.or_eq_false_iff, List.any_eq_false]
    refine ⟨by simpa using hstays, fun t ht => ?_⟩
    have hmem := List.mem_map_of_mem (f := Target.name) ht
    rw [htargets] at hmem
    obtain ⟨e, he, hname⟩ := List.mem_map.mp hmem
    simp [← hname, hfits e he]
  rw [edits, isToExpand, hmust, Bool.and_false, if_neg Bool.false_ne_true,
    renamingEdits_of_named htargets]

end Chain
end CiteMarkup
