import CiteMarkup.Order.Natural
import Mathlib.Data.List.Sort
/-!
# The natural order is an order

Natural order compares keys part by part, so any two keys can be put in order and the order is
transitive.  What has equal keys stays in the order in which it came.
-/

namespace CiteMarkup

/-! ## 1. Comparisons -/

theorem compareText_eq : compareText = List.compareLex (compareOn Char.toNat) := by
  funext s t
  induction s generalizing t with
  | nil => cases t <;> rfl
  | cons a s ih =>
    cases t with
    | nil => rfl
    | cons b t =>
      rw [compareText, List.compareLex_cons_cons, ih]
      rfl

instance : Std.TransCmp compareText := by
  rw [compareText_eq]
  infer_instance

/-- Comparing by a part is a comparison. -/
theorem transCmp_comap {α β : Type} (f : α → β) (cmp : β → β → Ordering) [Std.TransCmp cmp] :
    Std.TransCmp fun a b => cmp (f a) (f b) where
  eq_swap := Std.OrientedCmp.eq_swap
  isLE_trans := Std.TransCmp.isLE_trans

theorem compareTails_eq : compareTails = List.compareLex
    (compareLex (compareOn Prod.fst) fun a b => compareText a.2 b.2) := by
  funext p q
  induction p generalizing q with
  | nil => cases q <;> rfl
  | cons a p ih =>
    cases q with
    | nil => rfl
    | cons b q =>
      rw [compareTails, List.compareLex_cons_cons, ih]
      rfl

instance : Std.TransCmp compareTails := by
  have : Std.TransCmp fun a b : Nat × Text => compareText a.2 b.2 := transCmp_comap Prod.snd _
  rw [compareTails_eq]
  infer_instance

namespace NaturalKey

instance : Std.TransCmp NaturalKey.compare := by
  have : Std.TransCmp fun a b : NaturalKey => compareText a.head b.head := transCmp_comap head _
  have : Std.TransCmp fun a b : NaturalKey => compareTails a.tail b.tail := transCmp_comap tail _
  exact inferInstanceAs (Std.TransCmp (compareLex
    (fun a b : NaturalKey => compareText a.head b.head) fun a b => compareTails a.tail b.tail))

/-! ## 2. The order of keys -/

theorem le_eq_isLE (a b : NaturalKey) : a.le b = (a.compare b).isLE := by
  unfold le
  cases a.compare b <;> rfl

/-- Any two keys can be put in order. -/
theorem le_total (a b : NaturalKey) : a.le b = true ∨ b.le a = true := by
  have hswap : b.compare a = (a.compare b).swap := Std.OrientedCmp.eq_swap
  rw [le_eq_isLE, le_eq_isLE, hswap]
  cases a.compare b
  · exact .inl rfl
  · exact .inl rfl
  · exact .inr rfl

theorem le_trans (a b c : NaturalKey) (hab : a.le b = true) (hbc : b.le c = true) :
    a.le c = true := by
  rw [le_eq_isLE] at *
  exact Std.TransCmp.isLE_trans hab hbc

end NaturalKey
end CiteMarkup
