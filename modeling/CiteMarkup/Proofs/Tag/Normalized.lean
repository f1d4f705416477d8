import CiteMarkup.Proofs.Tag.Anew
import CiteMarkup.Proofs.Tag.Tidied
/-!
# Bodies with citation templates written anew

Normalizing a body tidies its lines and writes its citation templates anew.  The page is woven from
these templates and the gaps between them, and each block of it is written anew by itself
(`renewed_weave`, `exists_renewedAs`).  If all of them can be written anew, the new page is woven
from the same gaps and says the same citations (`kept_weave`), and written anew it stays as it is.
If one of them cannot, it is found with fewer parameters or leaves a brace in the gap behind it, so
the citations or the texts around them are not the same (`renewable_of_kept`).  Both together are
`citations_kept_iff`.  Lines stay tidy in all cases (`tidy_normalized`).
-/

namespace CiteMarkup

namespace Page

variable {b : Bool} {e : Page} {c : Page × Page} {cs cs' : List (Page × Page)} {t : Text}

/-! ## 1. A page written anew -/

/-- A template is written anew behind a text as it is by itself. -/
theorem renewIn_shift (m : Template) (u t : Text) :
    renewIn (m.shift u.length) (u ++ t) = u ++ renewIn m t := by
  rw [renewIn, renewIn, Template.params_shift]
  split
  · rfl
  · have htake : (u ++ t).take (u.length + m.span.start) = u ++ t.take m.span.start :=
      List.take_length_add_append _
    have hdrop : (u ++ t).drop (u.length + m.span.stop) = t.drop m.span.stop :=
      List.drop_length_add_append _
    have hnew : (m.shift u.length).writtenAnew = m.writtenAnew := rfl
    rw [Template.span_shift, Span.start_shift, Span.stop_shift, htake, hdrop, hnew]
    simp

theorem foldr_renewIn_shift (ms : List Template) (u t : Text) :
    (ms.map (Template.shift u.length)).foldr renewIn (u ++ t) = u ++ ms.foldr renewIn t := by
  induction ms with
  | nil => rfl
  | cons m ms ih => rw [List.map_cons, List.foldr_cons, List.foldr_cons, ih, renewIn_shift]

/-- A template that takes up all of a text is written anew in front of another one. -/
theorem renewIn_append {x : Template} {n : Nat} (hx : x.span = Span.ofLength 0 n)
    (hn : t.length = n) (u : Text) : renewIn x (t ++ u) = renewIn x t ++ u := by
  subst hn
  rw [renewIn, renewIn, hx, Span.start_ofLength, Span.stop_ofLength, Nat.zero_add, List.drop_left,
    List.drop_length]
  split <;> simp

/-- What stands in a page between the gaps is written anew by itself. -/
theorem renewed_weave_cons (h : IsWoven isCitationName (c :: cs) e) :
    (weave (c :: cs) e).renewed = c.1.raw ++ (c.2.renewed ++ (weave cs e).renewed) := by
  obtain ⟨x, hx, hspan⟩ := templatesWhere_block h.2.1.choose_spec.choose_spec
  have hblock : c.2.renewed = renewIn x c.2.raw := by
    rw [renewed, hx]
    rfl
  rw [renewed, templatesWhere_weave h, weave, raw_append, raw_append, foldr_renewIn_shift,
    List.foldr_append, foldr_renewIn_shift, hx, List.foldr_cons, List.foldr_nil,
    renewIn_append hspan rfl, ← hblock]
  rfl

/-- The page with its blocks written anew. -/
theorem renewed_weave {e' : Page} (h : IsWoven isCitationName cs e) (he : e'.raw = e.raw)
    (hcs : List.Forall₂ (fun c c' => c'.1.raw = c.1.raw ∧ c'.2.raw = c.2.renewed) cs cs') :
    (weave cs e).renewed = (weave cs' e').raw := by
  induction hcs with
  | nil =>
    rw [weave, weave, renewed, templatesWhere_weave_nil h, he]
    rfl
  | cons hc hcs ih =>
    rw [renewed_weave_cons h, ih h.2.2, weave, raw_append, raw_append, hc.1, hc.2]

/-! ## 2. Blocks that hide whole parts -/

/-- The blocks of a page are blocks. -/
theorem IsWoven.isBlock {wanted : Text → Bool} (h : IsWoven wanted cs e) :
    ∀ c ∈ cs, ∃ n i, IsBlock wanted n i c.2.seen := by
  induction cs with
  | nil => simp
  | cons c cs ih => exact List.forall_mem_cons.mpr ⟨h.2.1, ih h.2.2⟩

/-- The blocks of a page that hides whole parts hide whole parts. -/
theorem hides_of_isWoven {wanted : Text → Bool} (h : IsWoven wanted cs e)
    (hp : Hides b (weave cs e).raw (weave cs e).seen) :
    ∀ c ∈ cs, Hides true c.2.raw c.2.seen := by
  induction cs with
  | nil => simp
  | cons c cs ih =>
    obtain ⟨-, ⟨name, inner, hb⟩, hrest⟩ := h
    obtain ⟨-, hbehind⟩ := hp.cut_before (c := '{') (by decide) (hb.head? _)
    have hlast : c.2.seen.getLast? = some '}' := by
      have hend : templateText name inner = '{' :: '{' :: (name ++ inner) ++ ['}'] ++ ['}'] := by
        simp [templateText]
      rw [hb.text, hend, List.getLast?_concat]
    obtain ⟨hc, hcs⟩ := hbehind.cut_behind (by decide) hlast
    exact List.forall_mem_cons.mpr ⟨hc, ih hrest hcs⟩

/-- A gap and its block, written anew. -/
structure RenewedAs (c c' : Page × Page) : Prop where
  gap : c'.1 = c.1
  block : c.2.IsAnew c'.2

/-- **A page and what is seen of it are written anew together.** -/
theorem exists_renewedAs (h : IsWoven isCitationName cs e)
    (hp : Hides b (weave cs e).raw (weave cs e).seen) :
    ∃ cs', List.Forall₂ RenewedAs cs cs' ∧ (weave cs e).renewed = (weave cs' e).raw ∧
      (bare (weave cs e).seen).renewed = (weave cs' e).seen := by
  have hall : ∀ ds : List (Page × Page),
      (∀ c ∈ ds, Hides true c.2.raw c.2.seen ∧ ∃ n i, IsBlock isCitationName n i c.2.seen) →
      ∃ ds', List.Forall₂ RenewedAs ds ds' := by
    intro ds hds
    induction ds with
    | nil => exact ⟨[], .nil⟩
    | cons c ds ih =>
      obtain ⟨ds', hrest⟩ := ih fun d hd => hds d (List.mem_cons_of_mem _ hd)
      obtain ⟨hc, n, i, hblock⟩ := hds c List.mem_cons_self
      obtain ⟨c', hanew⟩ := exists_isAnew hblock hc
      exact ⟨(c.1, c') :: ds', .cons ⟨rfl, hanew⟩ hrest⟩
  obtain ⟨cs', hcs⟩ := hall cs fun c hc => ⟨hides_of_isWoven h hp c hc, h.isBlock c hc⟩
  refine ⟨cs', hcs, ?_, ?_⟩
  · exact renewed_weave h rfl (hcs.imp fun c c' hc => ⟨by rw [hc.gap], hc.block.raw⟩)
  · have hbares : List.Forall₂ (fun c c' => c'.1.raw = c.1.raw ∧ c'.2.raw = c.2.renewed)
        (cs.map bareOf) (cs'.map bareOf) := by
      rw [List.forall₂_map_left_iff, List.forall₂_map_right_iff]
      refine hcs.imp fun c c' hc => ⟨?_, hc.block.seen⟩
      rw [bareOf, bareOf, hc.gap]
    have hbare : (weave (cs.map bareOf) (bare e.seen)).renewed =
        (weave (cs'.map bareOf) (bare e.seen)).raw := renewed_weave h.bare rfl hbares
    rw [bare_weave, hbare, ← bare_weave]
    rfl

/-- What holds of all templates of a page holds of those of its blocks, if places do not matter to
it. -/
theorem forall_templatesWhere_weave {wanted : Text → Bool} {P : Template → Prop}
    (hshift : ∀ (m : Template) (n : Nat), P (m.shift n) ↔ P m) (h : IsWoven wanted cs e) :
    (∀ m ∈ (weave cs e).templatesWhere wanted, P m) ↔
      ∀ c ∈ cs, ∀ m ∈ c.2.templatesWhere wanted, P m := by
  induction cs with
  | nil => simp [weave, templatesWhere_weave_nil h]
  | cons c cs ih =>
    rw [templatesWhere_weave h, List.forall_mem_cons, ← ih h.2.2, List.forall_mem_map,
      List.forall_mem_append, List.forall_mem_map]
    simp only [hshift]

end Page

/-! ## 3. The same citations -/

/-- The same citation: its name, its parameters in some order, and those without a key in the same
order. -/
structure SameCitation (m m' : Template) : Prop where
  name : m'.name = m.name
  perm : (m'.params.map Param.said).Perm (m.params.map Param.said)
  order : (m'.params.filter (!·.isKeyed)).map Param.said =
    (m.params.filter (!·.isKeyed)).map Param.said

/-- The same citations, one after the other, with the same texts around them. -/
structure KeepsCitations (t t' : Text) : Prop where
  citations : List.Forall₂ SameCitation ((Page.ofText t).templatesWhere isCitationName)
    ((Page.ofText t').templatesWhere isCitationName)
  around : textsAround t' 0 ((Page.ofText t').templatesWhere isCitationName) =
    textsAround t 0 ((Page.ofText t).templatesWhere isCitationName)

section Same

variable {p : Page} {m m' : Template} {wanted : Text → Bool}

/-- The parameters of a template without a key are counted. -/
theorem areNumbered_of_mem (h : m ∈ p.templatesWhere wanted) : AreNumbered 1 m.params := by
  obtain ⟨f, -, rfl⟩ := List.mem_map.mp h
  exact areNumbered_params _

/-- What is said by the parameters without a key. -/
theorem map_said_filter (l : List Param) : (l.filter (!·.isKeyed)).map Param.said =
    (l.map Param.said).filter fun s => !Param.isKeyed ⟨s.1, s.2, 0, .empty 0⟩ := by
  rw [List.filter_map]
  rfl

/-- **A citation whose parameters are put in front is the same.** -/
theorem sameCitation_of_given (hname : m'.name = m.name)
    (hgiven : m'.params.map Param.given = (frontFirst leadingKeys m.params).map Param.given)
    (hm : AreNumbered 1 m.params) (hm' : AreNumbered 1 m'.params) : SameCitation m m' := by
  have hsaid := map_said_of_given hgiven hm' (hm.frontFirst leadingKeys)
  refine ⟨hname, ?_, ?_⟩
  · rw [hsaid]
    exact (frontFirst_perm leadingKeys m.params).map _
  · rw [map_said_filter, hsaid, ← map_said_filter, filter_frontFirst]

theorem SameCitation.shift (h : SameCitation m m') (n n' : Nat) :
    SameCitation (m.shift n) (m'.shift n') :=
  ⟨h.name, h.perm, h.order⟩

theorem SameCitation.length_eq (h : SameCitation m m') : m'.params.length = m.params.length := by
  have hlength := h.perm.length_eq
  rwa [List.length_map, List.length_map] at hlength

theorem Template.renewable_shift (m : Template) (n : Nat) :
    (m.shift n).Renewable ↔ m.Renewable :=
  ⟨fun h => ⟨h.apart, h.last⟩, fun h => ⟨h.apart, h.last⟩⟩

end Same

/-! ## 4. Pages that can be written anew -/

namespace Page

section Sufficient

variable {e : Page} {c c' : Page × Page} {cs cs' : List (Page × Page)}

/-- A block that can be written anew, written anew. -/
structure Kept (c c' : Page × Page) : Prop where
  gap : c'.1 = c.1
  block : ∃ n i, IsBlock isCitationName n i c'.2.seen
  same : List.Forall₂ SameCitation (c.2.templatesWhere isCitationName)
    (c'.2.templatesWhere isCitationName)
  renewed : c'.2.renewed = c'.2.raw

theorem RenewedAs.kept (h : RenewedAs c c')
    (hc : ∀ m ∈ (bare c.2.seen).templatesWhere isCitationName, m.Renewable) : Kept c c' := by
  obtain ⟨x, x', hx, hx', ⟨n, i, y, hblock, hy, hname, hread, -⟩ | ⟨hno, -⟩⟩ := h.block.outcome
  · obtain ⟨hgiven, hrenewed⟩ := hread (hc x' (by rw [hx']; exact List.mem_singleton_self x'))
    refine ⟨h.gap, ⟨n, i, hblock⟩, ?_, hrenewed⟩
    rw [hx, hy]
    refine .cons (sameCitation_of_given hname hgiven ?_ ?_) .nil
    · exact areNumbered_of_mem (hx ▸ List.mem_singleton_self x)
    · exact areNumbered_of_mem (hy ▸ List.mem_singleton_self y)
  · exact absurd (hc x' (by rw [hx']; exact List.mem_singleton_self x')) hno

/-- **Templates that can be written anew are kept.** -/
theorem kept_weave (h : IsWoven isCitationName cs e) (hcs : List.Forall₂ Kept cs cs') :
    IsWoven isCitationName cs' e ∧
      List.Forall₂ SameCitation ((weave cs e).templatesWhere isCitationName)
        ((weave cs' e).templatesWhere isCitationName) ∧
      textsAround (weave cs' e).raw 0 ((weave cs' e).templatesWhere isCitationName) =
        textsAround (weave cs e).raw 0 ((weave cs e).templatesWhere isCitationName) ∧
      (weave cs' e).renewed = (weave cs' e).raw := by
  have hwoven := h.swap (hcs.imp fun c c' hc => ⟨hc.gap, hc.block⟩)
  refine ⟨hwoven, ?_, ?_, ?_⟩
  · exact forall₂_templatesWhere (fun n n' hm => hm.shift n n') h hwoven
      (hcs.imp fun c c' hc => hc.same)
  · have hgaps : cs'.map (·.1.raw) = cs.map (·.1.raw) := by
      rw [← List.forall₂_eq_eq_eq, List.forall₂_map_left_iff, List.forall₂_map_right_iff]
      exact hcs.flip.imp fun c' c hc => by rw [hc.gap]
    rw [textsAround_weave hwoven, textsAround_weave h, hgaps]
  · refine renewed_weave hwoven rfl (List.forall₂_same.mpr ?_)
    clear h hwoven
    induction hcs with
    | nil => simp
    | cons hc hcs ih => exact List.forall_mem_cons.mpr ⟨⟨rfl, hc.renewed.symm⟩, ih⟩

end Sufficient

/-! ## 5. Nothing else is kept -/

section Necessary

variable {wanted : Text → Bool} {p q g r e : Page} {c' : Page × Page} {cs cs' : List (Page × Page)}
  {y : Template} {ys : List Template} {t u : Text}

theorem IsVeiled.of_append (h : (p.append q).IsVeiled) : q.IsVeiled := by
  intro i c hi hc
  have hseen : (p.append q).seen[p.raw.length + i]? = some c := by
    rw [seen_append, ← p.aligned, List.getElem?_append_right (Nat.le_add_right _ _),
      Nat.add_sub_cancel_left, hi]
  have hraw := h hseen hc
  rwa [raw_append,
    List.getElem?_append_right (Nat.le_add_right _ _), Nat.add_sub_cancel_left] at hraw

theorem IsVeiled.of_append_left (h : (p.append q).IsVeiled) : p.IsVeiled := by
  intro i c hi hc
  obtain ⟨hlt, -⟩ := List.getElem?_eq_some_iff.mp hi
  have hraw := h (i := i) (by rw [seen_append, List.getElem?_append_left hlt, hi]) hc
  rwa [raw_append, List.getElem?_append_left (p.aligned ▸ hlt)] at hraw

/-- In front of the first template nothing is found. -/
theorem exists_quiet_of_templatesWhere (h : p.templatesWhere wanted = y :: ys) :
    ∃ g rest n hd, p.seen = g ++ rest ∧ Quiet wanted rest g ∧
      invocationRule wanted rest = .found n hd ∧ y.span.start = g.length := by
  rw [templatesWhere] at h
  cases hscan : scan (fun _ => invocationRule wanted) p.seen with
  | nil =>
    rw [hscan] at h
    cases h
  | cons f fs =>
    rw [hscan, List.map_cons] at h
    obtain ⟨rfl, -⟩ := List.cons.inj h
    obtain ⟨g, rest, n, hd, hseen, hg, hrule, hf, -⟩ := exists_quiet hscan
    refine ⟨g, rest, n, hd, hseen, hg, hrule, ?_⟩
    rw [hf]
    rfl

/-- The text in front of the first template is a gap. -/
theorem quiet_of_start (h : (g.append r).templatesWhere wanted = y :: ys)
    (hstart : y.span.start = g.raw.length) : Quiet wanted r.seen g.seen := by
  obtain ⟨g', rest, n, hd, hseen, hg, -, hy⟩ := exists_quiet_of_templatesWhere h
  have hlength : g.seen.length = g'.length := by rw [g.aligned, ← hstart, hy]
  obtain ⟨rfl, rfl⟩ := List.append_inj (by rwa [seen_append] at hseen) hlength
  exact hg

/-- A template begins with a brace. -/
theorem brace_of_templatesWhere (hp : p.IsVeiled) (h : p.templatesWhere wanted = y :: ys) :
    p.raw[y.span.start]? = some '{' := by
  obtain ⟨g, rest, n, hd, hseen, -, hrule, hy⟩ := exists_quiet_of_templatesWhere h
  obtain ⟨name, inner, u, v, rfl, hu, -, -⟩ := exists_isBlock hrule
  refine hp ?_ (by decide)
  rw [hseen, hy, List.getElem?_append_right (Nat.le_refl _), Nat.sub_self, ← List.head?_eq_getElem?,
    hu.head?]

/-- A text that begins with what stands behind its first character repeats that character. -/
theorem getElem?_of_take_eq {x : Char} (h : (x :: (u ++ t)).take u.length = u) {i : Nat}
    (hi : i ≤ u.length) : (x :: (u ++ t))[i]? = some x := by
  induction i with
  | zero => rfl
  | succ i ih =>
    have hlt : i < u.length := hi
    have hu : u[i]? = some x := by
      nth_rewrite 1 [← h]
      rw [List.getElem?_take_of_lt hlt, ih (Nat.le_of_lt hlt)]
    rw [List.getElem?_cons_succ, List.getElem?_append_left hlt, hu]

/-- The text in front of the first template ends where that begins. -/
theorem start_of_textsAround {x : Text} {gaps : List Text} (hp : p.IsVeiled)
    (h : p.templatesWhere wanted = y :: ys)
    (hgaps : textsAround p.raw 0 (p.templatesWhere wanted) = x :: gaps) :
    y.span.start = x.length ∧ p.raw.take x.length = x := by
  obtain ⟨hlt, -⟩ := List.getElem?_eq_some_iff.mp (brace_of_templatesWhere hp h)
  rw [h, textsAround] at hgaps
  have hfirst : p.raw.take y.span.start = x := by
    rw [← (List.cons.inj hgaps).1, Text.slice, List.drop_zero]
  have hlength : y.span.start = x.length := by
    rw [← hfirst, List.length_take]
    omega
  exact ⟨hlength, hlength ▸ hfirst⟩

/-- A brace in front of the first gap would have to be the first character of that gap, and so would
every character up to the first template. -/
theorem not_brace_in_front {x rest : Text} {gaps : List Text} (hp : p.IsVeiled)
    (hgaps : textsAround p.raw 0 (p.templatesWhere wanted) = x :: gaps)
    (hraw : p.raw = '}' :: (x ++ rest)) : False := by
  cases htemplates : p.templatesWhere wanted with
  | nil =>
    rw [htemplates, textsAround, List.drop_zero] at hgaps
    have hlength := congrArg List.length (hraw.symm.trans (List.cons.inj hgaps).1)
    simp only [List.length_cons, List.length_append] at hlength
    omega
  | cons y ys =>
    have hbrace := brace_of_templatesWhere hp htemplates
    obtain ⟨hstart, hfirst⟩ := start_of_textsAround hp htemplates hgaps
    rw [hraw] at hfirst
    rw [hraw, hstart, getElem?_of_take_eq hfirst (Nat.le_refl _)] at hbrace
    cases hbrace

/-- A page begins with its first gap, also when its blocks have been written anew. -/
theorem exists_firstGap (e : Page) (hcs : List.Forall₂ RenewedAs cs cs') : ∃ x gaps rest,
    cs.map (·.1.raw) ++ [e.raw] = x :: gaps ∧ (weave cs' e).raw = x ++ rest := by
  cases hcs with
  | nil => exact ⟨e.raw, [], [], rfl, (List.append_nil _).symm⟩
  | @cons c c' cs cs' hc hcs =>
    refine ⟨c.1.raw, _, c'.2.raw ++ (weave cs' e).raw, rfl, ?_⟩
    rw [weave, raw_append, raw_append, hc.gap]

/-- **A template that is cut short is not kept**: its last brace would stand in front of the next
gap. -/
theorem not_cutShort {x : Text} (h : CutShort c'.2)
    (hquiet : Quiet isCitationName (c'.2.append (weave cs' e)).seen c'.1.seen)
    (hveiled : (c'.2.append (weave cs' e)).IsVeiled) (hcs : List.Forall₂ RenewedAs cs cs')
    (haround : textsAround (weave (c' :: cs') e).raw 0
      ((weave (c' :: cs') e).templatesWhere isCitationName) =
        x :: (cs.map (·.1.raw) ++ [e.raw])) : False := by
  obtain ⟨n, i, u, hu, hblock⟩ := h
  obtain ⟨U, D, hUD, rfl, hD⟩ := exists_append hu
  have hassoc : c'.2.append (weave cs' e) = U.append (D.append (weave cs' e)) := by
    rw [hUD]
    simp [append]
  rw [hassoc] at hquiet hveiled
  rw [weave, hassoc, textsAround_gap_block hquiet hblock] at haround
  obtain ⟨y, gaps, rest, hgaps, hraw⟩ := exists_firstGap e hcs
  have hbehind : (D.append (weave cs' e)).IsVeiled := hveiled.of_append
  have hbrace : D.raw = ['}'] := by
    obtain ⟨d, hd⟩ := List.length_eq_one_iff.mp (show D.raw.length = 1 by rw [← D.aligned, hD]; rfl)
    have hfirst : (D.append (weave cs' e)).raw[0]? = some '}' :=
      hbehind (by rw [seen_append, hD]; rfl) (by decide)
    rw [raw_append, hd] at hfirst
    rw [hd, Option.some.inj hfirst]
  have hfront : (D.append (weave cs' e)).raw = '}' :: (y ++ rest) := by
    rw [raw_append, hbrace, hraw]
    rfl
  exact not_brace_in_front hbehind ((List.cons.inj haround).2.trans hgaps) hfront

/-- **Only templates that can be written anew are kept.** -/
theorem renewable_of_kept (h : IsWoven isCitationName cs e) (hcs : List.Forall₂ RenewedAs cs cs')
    (hveiled : (weave cs' e).IsVeiled)
    (hsame : List.Forall₂ SameCitation ((weave cs e).templatesWhere isCitationName)
      ((weave cs' e).templatesWhere isCitationName))
    (haround : textsAround (weave cs' e).raw 0 ((weave cs' e).templatesWhere isCitationName) =
      cs.map (·.1.raw) ++ [e.raw]) :
    ∀ c ∈ cs, ∀ m ∈ (bare c.2.seen).templatesWhere isCitationName, m.Renewable := by
  induction hcs with
  | nil => simp
  | @cons c c' cs cs' hc hcs ih =>
    obtain ⟨x, x', hx, hx', hout⟩ := hc.block.outcome
    rw [templatesWhere_weave h, hx, List.singleton_append, List.map_cons] at hsame
    -- what stands in front of the first template is the gap
    obtain ⟨y, ys, hy⟩ : ∃ y ys, (weave (c' :: cs') e).templatesWhere isCitationName = y :: ys := by
      cases hnew : (weave (c' :: cs') e).templatesWhere isCitationName with
      | nil =>
        rw [hnew] at hsame
        cases hsame
      | cons y ys => exact ⟨y, ys, rfl⟩
    have hstart : y.span.start = c'.1.raw.length := by
      rw [hc.gap]
      exact (start_of_textsAround hveiled hy haround).1
    have hquiet : Quiet isCitationName (c'.2.append (weave cs' e)).seen c'.1.seen :=
      quiet_of_start hy hstart
    have hrest : (c'.2.append (weave cs' e)).IsVeiled := hveiled.of_append
    rcases hout with ⟨n, i, y, hblock, hy, -, -, hall⟩ | ⟨-, hcut⟩
    · rw [weave, templatesWhere_gap_block hquiet hblock, hy,
        List.singleton_append, List.map_cons] at hsame
      rw [weave, textsAround_gap_block hquiet hblock, List.map_cons, List.cons_append] at haround
      obtain ⟨hfirst, hothers⟩ := List.forall₂_cons.mp hsame
      simp only [List.forall₂_map_left_iff, List.forall₂_map_right_iff] at hothers
      refine List.forall_mem_cons.mpr ⟨?_, ih h.2.2 hrest.of_append ?_ (List.cons.inj haround).2⟩
      · rw [hx']
        intro m hm
        obtain rfl := List.mem_singleton.mp hm
        exact hall (Nat.le_of_eq hfirst.length_eq.symm)
      · exact hothers.imp fun m m' hm => ⟨hm.name, hm.perm, hm.order⟩
    · exfalso
      exact not_cutShort hcut hquiet hrest hcs haround

end Necessary

end Page

/-! ## 6. Tidy lines -/

section Tidy

variable {wanted : Text → Bool} {p e : Page} {m : Template} {cs : List (Page × Page)} {t : Text}

theorem hasTidyLines_nil : HasTidyLines [] := ⟨.nil, trivial⟩

/-- Tidy texts with a space and a bar between two are tidy. -/
theorem hasTidyLines_join {parts : List Text} (h : ∀ u ∈ parts, HasTidyLines u) :
    HasTidyLines (Text.join " |".toList parts) := by
  induction parts with
  | nil => exact hasTidyLines_nil
  | cons u rest ih =>
    have hu := h u List.mem_cons_self
    have hrest := ih fun v hv => h v (List.mem_cons_of_mem _ hv)
    cases rest with
    | nil => simpa [Text.join] using hu
    | cons v rest =>
      have hspace : HasTidyLines (u ++ [' ']) := hu.append ⟨.singleton _, trivial⟩ (by simp)
      have hjoin : Text.join " |".toList (u :: v :: rest) =
          (u ++ [' ']) ++ '|' :: Text.join " |".toList (v :: rest) := by simp [Text.join]
      rw [hjoin]
      exact hspace.append_cons hrest (by decide) (by decide)

/-- What a template is written anew from stands on its page. -/
structure IsFrom (m : Template) (t : Text) : Prop where
  name : m.name <:+: t
  param : ∀ q ∈ m.params, q.value <:+: t ∧ (q.isKeyed = true → q.name <:+: t)

theorem isFrom_of_mem (hm : m ∈ p.templatesWhere wanted) : IsFrom m p.raw := by
  obtain ⟨f, -, rfl⟩ := List.mem_map.mp hm
  refine ⟨(Text.trim_infix _).trans (p.raw.slice_infix _ _), ?_⟩
  intro q hq
  obtain ⟨hvalue, hkey⟩ := infix_of_mem_params hq
  refine ⟨hvalue.trans (p.raw.slice_infix _ _), ?_⟩
  intro hk
  exact (hkey hk).trans (p.raw.slice_infix _ _)

/-- The parts of a template written anew. -/
theorem writtenAnew_eq (m : Template) : m.writtenAnew =
    ['{'] ++ '{' :: ((m.name ++ [' ']) ++ '|' :: (writtenParams m.params ++ ['}', '}'])) := by
  simp [Template.writtenAnew, writtenParams]

/-- **A template written anew is tidy** if its page is. -/
theorem hasTidyLines_writtenAnew (ht : HasTidyLines t) (hm : IsFrom m t) :
    HasTidyLines m.writtenAnew := by
  have hwrite : ∀ q ∈ m.params, HasTidyLines q.write := by
    intro q hq
    obtain ⟨hvalue, hkey⟩ := hm.param q hq
    rw [Param.write]
    split
    · rename_i hk
      exact (ht.of_infix (hkey hk)).append_cons (ht.of_infix hvalue) (by decide) (by decide)
    · exact ht.of_infix hvalue
  have hparams : HasTidyLines (writtenParams m.params) := by
    refine hasTidyLines_join fun u hu => ?_
    obtain ⟨q, hq, rfl⟩ := List.mem_map.mp hu
    exact hwrite q ((frontFirst_perm leadingKeys _).subset hq)
  have hspace : HasTidyLines (m.name ++ [' ']) :=
    (ht.of_infix hm.name).append ⟨.singleton _, trivial⟩ (by simp)
  have hend : HasTidyLines (['}'] ++ '}' :: []) :=
    HasTidyLines.append_cons ⟨.singleton _, trivial⟩ hasTidyLines_nil (by decide) (by decide)
  rw [writtenAnew_eq]
  refine HasTidyLines.append_cons ⟨.singleton _, trivial⟩ ?_ (by decide) (by decide)
  refine hspace.append_cons ?_ (by decide) (by decide)
  exact hparams.append hend (by simp)

/-- A block, written anew: it is tidy, and it begins and ends with a brace as before. -/
structure StaysTidy (t t' : Text) : Prop where
  lines : HasTidyLines t'
  head : t'.head? = t.head?
  last : t'.getLast? = t.getLast?

/-- A block of a page begins and ends with a brace. -/
theorem braces_of_isBlock {name inner : Text} (h : IsBlock wanted name inner p.seen)
    (hp : p.IsVeiled) : p.raw.head? = some '{' ∧ p.raw.getLast? = some '}' := by
  have hend : p.seen = '{' :: '{' :: (name ++ inner) ++ ['}'] ++ ['}'] := by
    rw [h.text]
    simp [templateText]
  constructor
  · rw [List.head?_eq_getElem?]
    exact hp (by rw [hend]; rfl) (by decide)
  · rw [List.getLast?_eq_getElem?, ← p.aligned]
    refine hp ?_ (by decide)
    rw [← List.getLast?_eq_getElem?, hend, List.getLast?_concat]

theorem staysTidy_block {name inner : Text} (h : IsBlock isCitationName name inner p.seen)
    (hp : p.IsVeiled) (ht : HasTidyLines p.raw) : StaysTidy p.raw p.renewed := by
  obtain ⟨x, hx, hspan⟩ := Page.templatesWhere_block h
  obtain ⟨hhead, hlast⟩ := braces_of_isBlock h hp
  by_cases hnil : x.params = []
  · rw [Page.renewed_of_params_nil hx hnil]
    exact ⟨ht, rfl, rfl⟩
  · rw [Page.renewed_of_params_ne_nil hx hspan hnil]
    refine ⟨hasTidyLines_writtenAnew ht (isFrom_of_mem (hx ▸ List.mem_singleton_self x)), ?_, ?_⟩
    · rw [hhead]
      rfl
    · rw [hlast, Template.writtenAnew, List.getLast?_append_of_ne_nil _ (by simp)]
      rfl

/-- **A page written anew stays tidy.** -/
theorem staysTidy_weave (h : Page.IsWoven isCitationName cs e) (hp : (Page.weave cs e).IsVeiled)
    (ht : HasTidyLines (Page.weave cs e).raw) :
    StaysTidy (Page.weave cs e).raw (Page.weave cs e).renewed := by
  induction cs with
  | nil =>
    have hsame : (Page.weave [] e).renewed = (Page.weave [] e).raw :=
      Page.renewed_weave h rfl .nil
    rw [hsame]
    exact ⟨ht, rfl, rfl⟩
  | cons c cs ih =>
    obtain ⟨name, inner, hblock⟩ := h.2.1
    have hraw : (Page.weave (c :: cs) e).raw = c.1.raw ++ (c.2.raw ++ (Page.weave cs e).raw) := rfl
    have hbehind : (c.2.append (Page.weave cs e)).IsVeiled := hp.of_append
    have hc : c.2.IsVeiled := hbehind.of_append_left
    rw [hraw] at ht
    have hb := staysTidy_block hblock hc (ht.of_infix ⟨c.1.raw, (Page.weave cs e).raw, by simp⟩)
    have hr := ih h.2.2 hbehind.of_append (ht.of_infix ⟨c.1.raw ++ c.2.raw, [], by simp⟩)
    obtain ⟨hhead, hlast⟩ := braces_of_isBlock hblock hc
    have hbhead : c.2.renewed.head? = some '{' := hb.head.trans hhead
    have hblast : c.2.renewed.getLast? = some '}' := hb.last.trans hlast
    have hboth : HasTidyLines (c.2.renewed ++ (Page.weave cs e).renewed) :=
      hb.lines.append_of_last hr.lines hblast (by decide) (by decide)
    rw [Page.renewed_weave_cons h, hraw]
    refine ⟨(ht.of_infix ⟨[], _, rfl⟩).append hboth ?_, ?_, ?_⟩
    · rw [List.head?_append, hbhead]
      simp
    · rw [List.head?_append, List.head?_append, List.head?_append,
        List.head?_append, hb.head, hr.head]
    · rw [List.getLast?_append, List.getLast?_append, List.getLast?_append, List.getLast?_append,
        hb.last, hr.last]

/-- A body whose citation templates have been written anew is tidy. -/
theorem tidy_normalized (b : Text) : tidy (normalized b) = normalized b := by
  obtain ⟨cs, e, hp, h⟩ := Page.exists_weave (Page.ofText (tidy b)) isCitationName
  have hveiled : (Page.weave cs e).IsVeiled := hp ▸ Page.isVeiled_ofText (tidy b)
  have hraw : (Page.weave cs e).raw = tidy b := by rw [← hp]; rfl
  have hnew : (Page.weave cs e).renewed = normalized b := by rw [← hp]; rfl
  have hstays := staysTidy_weave h hveiled (hraw ▸ hasTidyLines_tidy b)
  rw [hraw, hnew] at hstays
  have htrimmed : (tidy b).Trimmed := Text.trimmed_trim _
  refine tidy_of_hasTidyLines hstays.lines ⟨?_, ?_⟩
  · rw [hstays.head]
    exact htrimmed.head
  · rw [hstays.last]
    exact htrimmed.last

end Tidy

/-! ## 7. Normalized bodies -/

section Bodies

variable {b : Text} {p q : Page} {cs cs' : List (Page × Page)}

theorem Page.eq_of_texts (hraw : p.raw = q.raw) (hseen : p.seen = q.seen) : p = q := by
  obtain ⟨raw, seen, aligned⟩ := p
  obtain ⟨raw', seen', aligned'⟩ := q
  simp only at hraw hseen
  subst hraw hseen
  rfl

theorem forall₂_kept (hcs : List.Forall₂ Page.RenewedAs cs cs')
    (h : ∀ c ∈ cs, ∀ m ∈ (Page.bare c.2.seen).templatesWhere isCitationName, m.Renewable) :
    List.Forall₂ Page.Kept cs cs' := by
  induction hcs with
  | nil => exact .nil
  | @cons c c' cs cs' hc hcs ih =>
    exact .cons (hc.kept (h c List.mem_cons_self)) (ih fun d hd => h d (List.mem_cons_of_mem _ hd))

/-- A text around a character that a word does not hold has the word on one of its sides. -/
theorem infix_of_append_cons {u v w : Text} {c : Char} (hc : c ∉ u) (h : u <:+: v ++ c :: w) :
    u <:+: v ∨ u <:+: w := by
  obtain ⟨x, y, hxy⟩ := h
  rw [List.append_assoc] at hxy
  rcases List.append_eq_append_iff.mp hxy with ⟨z, rfl, hz⟩ | ⟨z, rfl, hz⟩
  · rcases List.append_eq_append_iff.mp hz with ⟨z', rfl, -⟩ | ⟨z', rfl, hz'⟩
    · exact .inl ⟨x, z', by simp⟩
    · cases z' with
      | nil => exact .inl ⟨x, [], by simp⟩
      | cons d z' =>
        obtain ⟨rfl, -⟩ := List.cons.inj hz'
        exact absurd (by simp) hc
  · cases z with
    | nil =>
      cases u with
      | nil => exact .inl (List.nil_infix)
      | cons d u =>
        obtain ⟨rfl, -⟩ := List.cons.inj hz
        exact absurd List.mem_cons_self hc
    | cons d z =>
      obtain ⟨-, rfl⟩ := List.cons.inj hz
      exact .inr ⟨z, y, by simp⟩

/-- The marks that a template is written with. -/
def templateMarks : Text := ['{', '}', '|', '=', ' ']

section Words

variable {u t : Text} {m : Template} (hne : u ≠ []) (hmarks : ∀ c ∈ templateMarks, c ∉ u)
include hne hmarks

theorem exists_of_infix_join {parts : List Text} (h : u <:+: Text.join " |".toList parts) :
    ∃ part ∈ parts, u <:+: part := by
  induction parts with
  | nil => exact absurd (List.infix_nil.mp h) hne
  | cons part rest ih =>
    cases rest with
    | nil => exact ⟨part, List.mem_cons_self, by simpa [Text.join] using h⟩
    | cons part' rest =>
      have hjoin : Text.join " |".toList (part :: part' :: rest) =
          part ++ ' ' :: ([] ++ '|' :: Text.join " |".toList (part' :: rest)) := by
        simp [Text.join]
      rw [hjoin] at h
      rcases infix_of_append_cons (hmarks ' ' (by decide)) h with h | h
      · exact ⟨part, List.mem_cons_self, h⟩
      · rcases infix_of_append_cons (hmarks '|' (by decide)) h with h | h
        · exact absurd (List.infix_nil.mp h) hne
        · obtain ⟨found, hmem, hfound⟩ := ih h
          exact ⟨found, List.mem_cons_of_mem _ hmem, hfound⟩

/-- **A word in a template written anew stands on its page**, if it holds no mark of a
template. -/
theorem infix_of_writtenAnew (hm : IsFrom m t) (h : u <:+: m.writtenAnew) : u <:+: t := by
  have hnil : ¬u <:+: [] := fun h => hne (List.infix_nil.mp h)
  have cut : ∀ {c : Char} {v w : Text}, c ∈ templateMarks → u <:+: v ++ c :: w →
      u <:+: v ∨ u <:+: w := fun hc => infix_of_append_cons (hmarks _ hc)
  have hwrite : ∀ q ∈ m.params, u <:+: q.write → u <:+: t := by
    intro q hq hspelled
    obtain ⟨hvalue, hkey⟩ := hm.param q hq
    rw [Param.write] at hspelled
    split at hspelled
    · rename_i hk
      exact (cut (by decide) hspelled).elim (·.trans (hkey hk)) (·.trans hvalue)
    · exact hspelled.trans hvalue
  have hshape : m.writtenAnew = [] ++ '{' :: ([] ++ '{' :: (m.name ++ ' ' :: ([] ++ '|' ::
      (writtenParams m.params ++ '}' :: ([] ++ ['}']))))) := by
    simp [writtenAnew_eq]
  rw [hshape] at h
  replace h := (cut (by decide) ((cut (by decide) h).resolve_left hnil)).resolve_left hnil
  rcases cut (by decide) h with h | h
  · exact h.trans hm.name
  · replace h := (cut (by decide) h).resolve_left hnil
    rcases cut (by decide) h with h | h
    · obtain ⟨_, hw, hinfix⟩ := exists_of_infix_join hne hmarks h
      obtain ⟨q, hq, rfl⟩ := List.mem_map.mp hw
      exact hwrite q ((frontFirst_perm leadingKeys _).subset hq) hinfix
    · exact absurd ((cut (by decide) h).elim id id) hnil

/-- **A word on a page written anew stands on the page**, if it holds no mark of a template. -/
theorem infix_of_renewed (h : u <:+: p.renewed) : u <:+: p.raw := by
  have hall : ∀ ms : List Template, (∀ m ∈ ms, IsFrom m p.raw) →
      u <:+: ms.foldr renewIn p.raw → u <:+: p.raw := by
    intro ms hms h
    induction ms with
    | nil => exact h
    | cons m ms ih =>
      have hrest := ih fun x hx => hms x (List.mem_cons_of_mem _ hx)
      rw [List.foldr_cons, renewIn] at h
      split at h
      · exact hrest h
      · obtain ⟨w, hw⟩ : ∃ w, m.writtenAnew = '{' :: (w ++ ['}']) :=
          ⟨'{' :: ((m.name ++ [' ']) ++ '|' :: (writtenParams m.params ++ ['}'])), by
            simp [writtenAnew_eq]⟩
        have hinner : w <:+: m.writtenAnew := ⟨['{'], ['}'], by simp [hw]⟩
        rw [List.append_assoc, hw, List.cons_append, List.append_assoc, List.singleton_append] at h
        rcases infix_of_append_cons (hmarks '{' (by decide)) h with h | h
        · exact hrest (h.trans (List.take_prefix _ _).isInfix)
        · rcases infix_of_append_cons (hmarks '}' (by decide)) h with h | h
          · exact infix_of_writtenAnew hne hmarks (hms m List.mem_cons_self) (h.trans hinner)
          · exact hrest (h.trans (List.drop_suffix _ _).isInfix)
  exact hall _ (fun m hm => isFrom_of_mem hm) h

end Words

/-- No word that protected parts begin with holds a mark of a template. -/
theorem not_mem_of_isOpener {u word : Text} (hword : word ∈ Protected.openers)
    (hu : Spells word u) :
    u ≠ [] ∧ ∀ c ∈ templateMarks, c ∉ u := by
  have hapart : ∀ word ∈ Protected.openers, word ≠ [] ∧
      (word.all fun l => templateMarks.all fun c => !isLetter l c) = true := by decide
  obtain ⟨hne, hapart⟩ := hapart word hword
  refine ⟨fun hnil => ?_, fun c hc hmem => ?_⟩
  · rw [hnil] at hu
    cases hu
    exact hne rfl
  · obtain ⟨l, hl, hletter⟩ := exists_isLetter_of_keyword?
      (keyword?_iff.mpr ⟨u, hu, List.append_nil u⟩) hmem
    have hnone := List.all_eq_true.mp (List.all_eq_true.mp hapart l hl) c hc
    rw [hletter] at hnone
    cases hnone

/-- **Nothing is hidden in a body in which no protected part can begin**, and nothing comes to be
hidden when its templates are written anew. -/
theorem veil_normalized_of_unopened (h : Protected.IsUnopened (tidy b)) :
    (normalized b).veil = (Page.bare (tidy b).veil).renewed := by
  have hpage : Page.ofText (tidy b) = Page.bare (tidy b).veil :=
    Page.eq_of_texts (veil_of_unopened h).symm rfl
  have hnew : Protected.IsUnopened (Page.ofText (tidy b)).renewed := by
    intro word hword u hu hinfix
    obtain ⟨hne, hmarks⟩ := not_mem_of_isOpener hword hu
    exact h word hword u hu (infix_of_renewed hne hmarks hinfix)
  rw [← hpage]
  exact veil_of_unopened hnew

/-- **The citations of a body and all the rest of it are kept when it is normalized exactly if each
of its citation templates can be written anew**: no parameter but the last, in the new order, leaves
a bracket open, the last one does not end with a brace too many, and there is more than a single
blank parameter.  A second time nothing changes then.  What is hidden in a body in which protected
parts can begin is to be carried along with the parameters, and no body is to hold the veil
itself. -/
theorem citations_kept_iff (b : Text) (hb : veil ∉ b)
    (hcarried : ¬Protected.IsUnopened (tidy b) →
      (normalized b).veil = (Page.bare (tidy b).veil).renewed) :
    (KeepsCitations (tidy b) (normalized b) ↔
        ∀ m ∈ (Page.bare (tidy b).veil).templatesWhere isCitationName, m.Renewable) ∧
      (KeepsCitations (tidy b) (normalized b) → normalized (normalized b) = normalized b) := by
  have hveil : (normalized b).veil = (Page.bare (tidy b).veil).renewed := by
    by_cases hopen : Protected.IsUnopened (tidy b)
    · exact veil_normalized_of_unopened hopen
    · exact hcarried hopen
  obtain ⟨cs, e, hp, hwoven⟩ := Page.exists_weave (Page.ofText (tidy b)) isCitationName
  have hhides : Hides false (Page.weave cs e).raw (Page.weave cs e).seen := by
    rw [← hp]
    exact hides_veil (tidy b) fun hmem => hb ((tidy_sublist b).subset hmem)
  obtain ⟨cs', hcs, hraw, hseen⟩ := Page.exists_renewedAs hwoven hhides
  -- the new page is woven from what has been written anew
  have hq : Page.ofText (normalized b) = Page.weave cs' e := by
    refine Page.eq_of_texts ?_ ?_
    · rw [← hraw, ← hp]
      rfl
    · rw [← hseen, ← hp]
      exact hveil
  have hrenewable : (∀ m ∈ (Page.bare (tidy b).veil).templatesWhere isCitationName, m.Renewable) ↔
      ∀ c ∈ cs, ∀ m ∈ (Page.bare c.2.seen).templatesWhere isCitationName, m.Renewable := by
    have hbare : Page.bare (tidy b).veil = Page.weave (cs.map Page.bareOf) (Page.bare e.seen) := by
      rw [← Page.bare_weave, ← hp]
      rfl
    rw [hbare, Page.forall_templatesWhere_weave Template.renewable_shift hwoven.bare,
      List.forall_mem_map]
    rfl
  have hfirst : tidy b = (Page.weave cs e).raw := by rw [← hp]; rfl
  have hsecond : normalized b = (Page.weave cs' e).raw := by rw [← hq]; rfl
  have honly : KeepsCitations (tidy b) (normalized b) →
      ∀ c ∈ cs, ∀ m ∈ (Page.bare c.2.seen).templatesWhere isCitationName, m.Renewable := by
    rintro ⟨hsame, haround⟩
    have hveiled : (Page.weave cs' e).IsVeiled := by
      rw [← hq]
      exact Page.isVeiled_ofText _
    rw [hp, hq] at hsame haround
    rw [hfirst, hsecond, Page.textsAround_weave hwoven] at haround
    exact Page.renewable_of_kept hwoven hcs hveiled hsame haround
  rw [hrenewable]
  refine ⟨⟨honly, fun hall => ?_⟩, fun hkept => ?_⟩
  · obtain ⟨-, hsame, haround, -⟩ := Page.kept_weave hwoven (forall₂_kept hcs hall)
    refine ⟨?_, ?_⟩
    · rw [hp, hq]
      exact hsame
    · rw [hp, hq, hfirst, hsecond]
      exact haround
  · obtain ⟨-, -, -, hagain⟩ := Page.kept_weave hwoven (forall₂_kept hcs (honly hkept))
    have htwice : normalized (normalized b) = (Page.ofText (tidy (normalized b))).renewed := rfl
    rw [htwice, tidy_normalized, hq, hagain, ← hsecond]

/-- A template whose two parameters are put in order, one of which hides a bar. -/
theorem citations_kept_two_parameters :
    KeepsCitations (tidy "{{cite web|url=<nowiki>|</nowiki>|title=t}}".toList)
        (normalized "{{cite web|url=<nowiki>|</nowiki>|title=t}}".toList) ∧
      normalized (normalized "{{cite web|url=<nowiki>|</nowiki>|title=t}}".toList) =
        normalized "{{cite web|url=<nowiki>|</nowiki>|title=t}}".toList ∧
      normalized "{{cite web|url=<nowiki>|</nowiki>|title=t}}".toList =
        "{{cite web |title=t |url=<nowiki>|</nowiki>}}".toList := by
  obtain ⟨hiff, htwice⟩ := citations_kept_iff "{{cite web|url=<nowiki>|</nowiki>|title=t}}".toList
    (by decide) (fun _ => by decide +kernel)
  have hkept := hiff.mpr (by decide +kernel)
  exact ⟨hkept, htwice hkept, by decide +kernel⟩

/-- A bracket that is open at the end of the last parameter is closed in the second one in the new
order, and what stands between is no parameter any more: a second time other parameters move. -/
theorem not_normalized_at_once :
    normalized (normalized "{{cite web|url=]]|x=1|url=2|title=[[}}".toList) ≠
        normalized "{{cite web|url=]]|x=1|url=2|title=[[}}".toList ∧
      normalized "{{cite web|url=]]|x=1|url=2|title=[[}}".toList =
        "{{cite web |title=[[ |url=]] |x=1 |url=2}}".toList ∧
      normalized "{{cite web |title=[[ |url=]] |x=1 |url=2}}".toList =
        "{{cite web |title=[[ |url=]] |url=2 |x=1}}".toList :=
  ⟨by decide +kernel, by decide +kernel, by decide +kernel⟩

end Bodies
end CiteMarkup
