import CiteMarkup.Proofs.Transform.Classes
import CiteMarkup.Proofs.Transform.Filing
/-!
# Bodies that tell references apart

References of one body are pointed at the first of them.  If no two references of a group have a
body in common, there is nothing to point (`dedupe_ofText`), and so it stays when bodies are left
as they are or cleaned, as long as they differ once they are cleaned (`TellApart.of_versions`).
-/

namespace CiteMarkup

/-- The body as it stands, and as it is once it has been cleaned. -/
def GivenBody.versions (normalize : Bool) (x : GivenBody) : List Text :=
  [x.body, cleaned normalize x.body]

/-- The one body is the other one, as it stands or cleaned, of the same reference. -/
structure GivenBody.IsVersionOf (normalize : Bool) (x x₀ : GivenBody) : Prop where
  name : x₀.name = x.name
  group : x₀.group = x.group
  body : x.body ∈ x₀.versions normalize

/-- No two names of a group have a body in common, up to blanks. -/
def TellApart (bodies : List GivenBody) : Prop :=
  ∀ x ∈ bodies, ∀ y ∈ bodies, x.name.isSome → y.name.isSome → x.group = y.group →
    Text.squeeze x.body = Text.squeeze y.body → x.name = y.name

/-- No two names of a group have a body in common, up to blanks and up to cleaning. -/
def TellApartCleaned (normalize : Bool) (bodies : List GivenBody) : Prop :=
  ∀ x ∈ bodies, ∀ y ∈ bodies, x.name.isSome → y.name.isSome → x.group = y.group →
    ∀ b ∈ x.versions normalize, ∀ c ∈ y.versions normalize,
      Text.squeeze b = Text.squeeze c → x.name = y.name

variable {normalize : Bool} {bodies bodies' : List GivenBody}

theorem TellApartCleaned.tellApart (h : TellApartCleaned normalize bodies) : TellApart bodies :=
  fun x hx y hy hxn hyn hg => h x hx y hy hxn hyn hg x.body List.mem_cons_self y.body
    List.mem_cons_self

/-- Bodies that are told apart up to cleaning are told apart once some of them are cleaned. -/
theorem TellApartCleaned.of_versions (h : TellApartCleaned normalize bodies)
    (hversions : ∀ x ∈ bodies', ∃ x₀ ∈ bodies, x.IsVersionOf normalize x₀) :
    TellApart bodies' := by
  intro x hx y hy hxn hyn hg heq
  obtain ⟨x₀, hx₀, hxv⟩ := hversions x hx
  obtain ⟨y₀, hy₀, hyv⟩ := hversions y hy
  have hname := h x₀ hx₀ y₀ hy₀ (by rw [hxv.name]; exact hxn) (by rw [hyv.name]; exact hyn)
    (by rw [hxv.group, hyv.group, hg]) x.body hxv.body y.body hyv.body heq
  rw [← hxv.name, ← hyv.name, hname]

/-- If no two records are alike, none is pointed at another one. -/
theorem Model.dedupe_eq_self {m : Model} (hself : ∀ r ∈ m.records, r.canonical = r.index)
    (hunlike : ∀ r ∈ m.records, ∀ s ∈ m.records, r.SameContent s → r = s) :
    m.dedupe.1 = m := by
  have hrecords : m.dedupe.1.records = m.records := by
    rw [dedupe_records m hself]
    refine (List.map_congr_left fun r hr => ?_).trans (List.map_id _)
    have hpointed : ((leader? m.records r).map (·.index)).getD r.index = r.canonical := by
      rw [hself r hr]
      cases hl : leader? m.records r with
      | none => rfl
      | some s =>
        obtain ⟨hs, hlike, -⟩ := likeness?_of_leader? hl
        obtain ⟨l, hsome, -⟩ := Option.bind_eq_some_iff.mp hl
        have hsame : r.SameContent s :=
          Record.sameContent_iff.mpr ⟨by rw [hsome]; rfl, hlike.symm⟩
        rw [hunlike r hr s hs hsame]
        rfl
    rw [Record.pointed, hpointed]
    rfl
  calc m.dedupe.1 = { m with records := m.dedupe.1.records } := rfl
    _ = m := by rw [hrecords]

/-- **If bodies tell references apart, no reference of the page is pointed at another one.** -/
theorem dedupe_ofText {t : Text} {names : List Text}
    (hplain : ∀ o ∈ ((Page.ofText t).survey names).occurrences, PlainlyKeyed o.name o.group)
    (hapart : TellApart (givenBodies names t)) :
    (Model.ofText t names).dedupe.1 = Model.ofText t names := by
  refine Model.dedupe_eq_self (unmerged_ofText t names) fun r hr s hs hsame => ?_
  obtain ⟨hrn, hsn, hgroup, b, c, hb, hc, hbc⟩ := hsame
  -- what a record gives does not depend on its place
  have h := isFiled_place .keep t names hplain
  have placed : ∀ q ∈ (Model.ofText t names).records, ∃ l,
      { q with location := l } ∈ ((Model.ofText t names).place .keep).1.records := by
    intro q hq
    obtain ⟨l, hl⟩ := Model.locateRecord_eq (Model.ofText t names) .keep q
    refine ⟨l, ?_⟩
    rw [Model.place_records, ← hl]
    exact List.mem_map_of_mem hq
  obtain ⟨lr, hrp⟩ := placed r hr
  obtain ⟨ls, hsp⟩ := placed s hs
  have hname : r.name = s.name :=
    hapart _ (mem_givenBodies.mpr (h.exists_given hrp hb)) _
      (mem_givenBodies.mpr (h.exists_given hsp hc)) hrn hsn hgroup hbc
  obtain ⟨n, hn⟩ := Option.isSome_iff_exists.mp hrn
  have hsame := h.eq_of_ref? hrp hsp (Record.ref?_eq_some.mpr ⟨hn, rfl⟩)
    (Record.ref?_eq_some (x := (n, r.group)).mpr ⟨hname.symm.trans hn, hgroup.symm⟩)
  have hindex := congrArg Record.index hsame
  exact (accounts_ofText t names).eq_of_index_eq hr hs hindex

end CiteMarkup
