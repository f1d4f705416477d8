import CiteMarkup.Proofs.Template.Blocks
/-!
# Pages made of gaps and blocks

A page is put together from gaps, in which no wanted invocation is found, and from the invocations
that are found (`exists_weave`).  If other invocations stand between the same gaps, these are what
is found (`IsWoven.swap`), and what stands around them is what has stood there before
(`textsAround_weave`).
-/

namespace CiteMarkup

variable {wanted : Text → Bool}

/-! ## 1. Templates at another place -/

@[simp] theorem Template.params_shift (n : Nat) (m : Template) :
    (m.shift n).params = m.params := rfl

/-- The texts around the templates of a text, from an offset on. -/
def textsAround (t : Text) : (offset : Nat) → List Template → List Text
  | a, [] => [t.drop a]
  | a, m :: ms => t.slice a m.span.start :: textsAround t m.span.stop ms

theorem textsAround_append (u t : Text) (a : Nat) (ms : List Template) :
    textsAround (u ++ t) (u.length + a) (ms.map (Template.shift u.length)) =
      textsAround t a ms := by
  induction ms generalizing a with
  | nil =>
    rw [List.map_nil, textsAround, textsAround, List.drop_length_add_append]
  | cons m ms ih =>
    rw [List.map_cons, textsAround, textsAround, Template.span_shift, Span.start_shift,
      Span.stop_shift, Text.slice_append_right, ih]

namespace Page

/-! ## 2. Weaving -/

variable {p q e : Page} {cs cs' : List (Page × Page)} {name inner u v : Text}

@[simp] theorem raw_append (p q : Page) : (p.append q).raw = p.raw ++ q.raw := rfl

@[simp] theorem seen_append (p q : Page) : (p.append q).seen = p.seen ++ q.seen := rfl

@[simp] theorem raw_bare (t : Text) : (bare t).raw = t := rfl

@[simp] theorem seen_bare (t : Text) : (bare t).seen = t := rfl

/-- Gaps with a block behind each, one behind the other, and what stands behind them. -/
def weave : List (Page × Page) → Page → Page
  | [], e => e
  | c :: cs, e => c.1.append (c.2.append (weave cs e))

/-- The blocks are invocations of wanted templates, and nothing is found in the gaps. -/
def IsWoven (wanted : Text → Bool) : List (Page × Page) → Page → Prop
  | [], e => scan (fun _ => invocationRule wanted) e.seen = []
  | c :: cs, e => Quiet wanted (c.2.seen ++ (weave cs e).seen) c.1.seen ∧
    (∃ name inner, IsBlock wanted name inner c.2.seen) ∧ IsWoven wanted cs e

/-- A page is cut wherever what is seen of it is. -/
theorem exists_append (h : p.seen = u ++ v) :
    ∃ q r : Page, p = q.append r ∧ q.seen = u ∧ r.seen = v := by
  have hlength : p.raw.length = u.length + v.length := by
    rw [← p.aligned, h, List.length_append]
  refine ⟨⟨p.raw.take u.length, u, by rw [List.length_take]; omega⟩,
    ⟨p.raw.drop u.length, v, by rw [List.length_drop]; omega⟩, ?_, rfl, rfl⟩
  obtain ⟨raw, seen, aligned⟩ := p
  simp only at h
  simp only [append, List.take_append_drop, h]

/-- **A page is made of gaps and blocks.** -/
theorem exists_weave (p : Page) (wanted : Text → Bool) :
    ∃ cs e, p = weave cs e ∧ IsWoven wanted cs e := by
  induction hlength : p.seen.length using Nat.strongRecOn generalizing p with
  | ind length ih =>
  cases hscan : scan (fun _ => invocationRule wanted) p.seen with
  | nil => exact ⟨[], p, rfl, hscan⟩
  | cons f fs =>
    obtain ⟨g, rest, n, hd, hseen, hg, hrule, -, -⟩ := exists_quiet hscan
    obtain ⟨name, inner, u, v, rfl, hu, -, -⟩ := exists_isBlock hrule
    obtain ⟨p₁, r, rfl, rfl, hr⟩ := exists_append hseen
    obtain ⟨p₂, p₃, rfl, rfl, rfl⟩ := exists_append hr
    have hpos : 0 < p₂.seen.length := by
      rw [hu.text, length_templateText]
      omega
    obtain ⟨cs, e, rfl, hcs⟩ := ih p₃.seen.length
      (by simp only [seen_append, List.length_append] at hlength; omega) p₃ rfl
    exact ⟨(p₁, p₂) :: cs, e, rfl, hg, ⟨name, inner, hu⟩, hcs⟩

/-- Other blocks between the same gaps. -/
def SameGaps (wanted : Text → Bool) (c c' : Page × Page) : Prop :=
  c'.1 = c.1 ∧ ∃ name inner, IsBlock wanted name inner c'.2.seen

/-- What is woven with other blocks closes as much. -/
theorem IsWoven.closes (h : IsWoven wanted cs e) (hcs : List.Forall₂ (SameGaps wanted) cs cs')
    {n : Nat} (hn : 1 ≤ n) : (balancedLength? n false (weave cs e).seen).isSome ↔
      (balancedLength? n false (weave cs' e).seen).isSome := by
  induction hcs generalizing n with
  | nil => rfl
  | @cons c c' cs cs' hc hcs ih =>
    obtain ⟨hg, ⟨name, inner, hb⟩, hrest⟩ := h
    obtain ⟨hgap, name', inner', hb'⟩ := hc
    rw [weave, weave, seen_append, seen_append, seen_append, seen_append, hgap]
    refine hg.closes ⟨hb.head? _, hb'.head? _, fun k hk => ?_⟩ n false hn (by simp)
    rw [hb.balancedLength? hk, hb'.balancedLength? hk, Option.isSome_map, Option.isSome_map]
    exact ih hrest hk

/-- **Other invocations can stand between the gaps.** -/
theorem IsWoven.swap (h : IsWoven wanted cs e) (hcs : List.Forall₂ (SameGaps wanted) cs cs') :
    IsWoven wanted cs' e := by
  induction hcs with
  | nil => exact h
  | @cons c c' cs cs' hc hcs ih =>
    obtain ⟨hg, ⟨name, inner, hb⟩, hrest⟩ := h
    obtain ⟨hgap, name', inner', hb'⟩ := hc
    refine ⟨?_, ⟨name', inner', hb'⟩, ih hrest⟩
    rw [hgap]
    refine hg.swap ⟨hb.head? _, hb'.head? _, fun k hk => ?_⟩
    rw [hb.balancedLength? hk, hb'.balancedLength? hk, Option.isSome_map, Option.isSome_map]
    exact hrest.closes hcs hk

/-! ## 3. What is found -/

/-- Behind a gap the templates are those of what stands there. -/
theorem templatesWhere_gap {g : Page} (h : Quiet wanted q.seen g.seen) :
    (g.append q).templatesWhere wanted =
      (q.templatesWhere wanted).map (Template.shift g.raw.length) := by
  rw [templatesWhere, seen_append, h.scan_eq, List.map_map, g.aligned, templatesWhere, List.map_map]
  exact List.map_congr_left fun f hf => invocation_append_right hf

/-- A block has one template, which takes up all of it. -/
theorem templatesWhere_block {b : Page} (h : IsBlock wanted name inner b.seen) :
    ∃ x : Template, b.templatesWhere wanted = [x] ∧ x.span = Span.ofLength 0 b.raw.length := by
  refine ⟨b.invocation ⟨Span.ofLength 0 b.seen.length, ⟨name.length, !inner.isEmpty⟩⟩, ?_, ?_⟩
  · rw [templatesWhere, h.splits.2, List.map_singleton]
  · rw [← b.aligned]
    rfl

theorem templatesWhere_weave_nil (h : IsWoven wanted [] e) : e.templatesWhere wanted = [] := by
  rw [templatesWhere, show scan _ e.seen = [] from h, List.map_nil]

/-- Behind a gap and a block everything is as it is by itself. -/
theorem templatesWhere_gap_block {g b r : Page} (hg : Quiet wanted (b.append r).seen g.seen)
    (hb : IsBlock wanted name inner b.seen) : (g.append (b.append r)).templatesWhere wanted =
      (b.templatesWhere wanted ++ (r.templatesWhere wanted).map (Template.shift b.raw.length)).map
        (Template.shift g.raw.length) := by
  rw [templatesWhere_gap hg, templatesWhere_append hb.splits.1]

theorem textsAround_gap_block {g b r : Page} (hg : Quiet wanted (b.append r).seen g.seen)
    (hb : IsBlock wanted name inner b.seen) :
    textsAround (g.append (b.append r)).raw 0 ((g.append (b.append r)).templatesWhere wanted) =
      g.raw :: textsAround r.raw 0 (r.templatesWhere wanted) := by
  obtain ⟨x, hx, hspan⟩ := templatesWhere_block hb
  have hstart : x.span.start = 0 := by rw [hspan, Span.start_ofLength]
  have hstop : x.span.stop = b.raw.length := by rw [hspan, Span.stop_ofLength, Nat.zero_add]
  have hbehind := textsAround_append b.raw r.raw 0 (r.templatesWhere wanted)
  have hall := textsAround_append g.raw (b.raw ++ r.raw) b.raw.length
    ((r.templatesWhere wanted).map (Template.shift b.raw.length))
  rw [Nat.add_zero] at hbehind
  rw [hbehind] at hall
  rw [templatesWhere_gap_block hg hb, hx, List.singleton_append, List.map_cons, textsAround,
    raw_append, raw_append, Template.span_shift, Span.start_shift, Span.stop_shift, hstart, hstop,
    hall, Nat.add_zero, Text.slice_append_left _ _ (Nat.le_refl _), Text.slice_length,
    List.drop_zero]

/-- The templates of a page are those of its blocks. -/
theorem templatesWhere_weave {c : Page × Page} (h : IsWoven wanted (c :: cs) e) :
    (weave (c :: cs) e).templatesWhere wanted = (c.2.templatesWhere wanted ++
      ((weave cs e).templatesWhere wanted).map (Template.shift c.2.raw.length)).map
        (Template.shift c.1.raw.length) := by
  obtain ⟨hg, ⟨name, inner, hb⟩, -⟩ := h
  exact templatesWhere_gap_block hg hb

/-- **The texts around the templates are the gaps.** -/
theorem textsAround_weave (h : IsWoven wanted cs e) :
    textsAround (weave cs e).raw 0 ((weave cs e).templatesWhere wanted) =
      cs.map (·.1.raw) ++ [e.raw] := by
  induction cs with
  | nil =>
    rw [weave, templatesWhere_weave_nil h]
    rfl
  | cons c cs ih =>
    obtain ⟨hg, ⟨name, inner, hb⟩, hrest⟩ := id h
    rw [weave, textsAround_gap_block hg hb, ih hrest, List.map_cons, List.cons_append]

/-- What holds of the templates of the blocks holds of those of the page, if places do not matter
to it. -/
theorem forall₂_templatesWhere {R : Template → Template → Prop}
    (hshift : ∀ {m m' : Template} (n n' : Nat), R m m' → R (m.shift n) (m'.shift n'))
    {e' : Page} (h : IsWoven wanted cs e) (h' : IsWoven wanted cs' e')
    (hcs : List.Forall₂ (fun c c' =>
      List.Forall₂ R (c.2.templatesWhere wanted) (c'.2.templatesWhere wanted)) cs cs') :
    List.Forall₂ R ((weave cs e).templatesWhere wanted) ((weave cs' e').templatesWhere wanted) := by
  have hmap : ∀ {ms ms' : List Template} (n n' : Nat), List.Forall₂ R ms ms' →
      List.Forall₂ R (ms.map (Template.shift n)) (ms'.map (Template.shift n')) := by
    intro ms ms' n n' hms
    rw [List.forall₂_map_left_iff, List.forall₂_map_right_iff]
    exact hms.imp fun _ _ => hshift n n'
  induction hcs with
  | nil =>
    rw [weave, weave, templatesWhere_weave_nil h, templatesWhere_weave_nil h']
    exact .nil
  | @cons c c' cs cs' hc hcs ih =>
    rw [templatesWhere_weave h, templatesWhere_weave h']
    exact hmap _ _ (List.rel_append hc (hmap _ _ (ih h.2.2 h'.2.2)))

/-! ## 4. What is seen of a page -/

theorem bare_append (u v : Text) : bare (u ++ v) = (bare u).append (bare v) := rfl

/-- What is seen of a gap and of a block. -/
def bareOf (c : Page × Page) : Page × Page := (bare c.1.seen, bare c.2.seen)

theorem bare_weave (cs : List (Page × Page)) (e : Page) :
    bare (weave cs e).seen = weave (cs.map bareOf) (bare e.seen) := by
  induction cs with
  | nil => rfl
  | cons c cs ih =>
    rw [weave, seen_append, seen_append, bare_append, bare_append, ih]
    rfl

/-- What is seen of a page is made of what is seen of its gaps and blocks. -/
theorem IsWoven.bare (h : IsWoven wanted cs e) :
    IsWoven wanted (cs.map bareOf) (Page.bare e.seen) := by
  induction cs with
  | nil => exact h
  | cons c cs ih =>
    refine ⟨?_, h.2.1, ih h.2.2⟩
    rw [← bare_weave]
    exact h.1

end Page
end CiteMarkup
