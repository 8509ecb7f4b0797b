import RouteTags.Path

namespace RouteTags

namespace Component

def text : Component → String
  | name s => s
  | _ => ""

theorem order_eq_compareLex : order = compareLex (compareOn rank) (compareOn text) := by
  funext a b
  cases a <;> cases b <;> rfl

instance : Std.TransCmp order := by
  rw [order_eq_compareLex]
  infer_instance

instance : Std.LawfulEqCmp order where
  eq_of_compare := by
    intro a b same
    rw [order_eq_compareLex, compareLex, Ordering.then_eq_eq] at same
    obtain ⟨ranks, texts⟩ := same
    have rank : a.rank = b.rank := Std.LawfulEqCmp.eq_of_compare ranks
    have text : a.text = b.text := Std.LawfulEqCmp.eq_of_compare texts
    cases a <;> cases b <;> simp_all [Component.rank, Component.text]

end Component

namespace Path

theorem orderComponents_eq : orderComponents = List.compareLex Component.order := by
  funext cs ds
  induction cs generalizing ds with
  | nil => cases ds <;> rfl
  | cons c cs ih =>
    cases ds with
    | nil => rfl
    | cons d ds => rw [orderComponents, List.compareLex_cons_cons, ih]

instance : Std.TransCmp orderComponents := by
  rw [orderComponents_eq]
  infer_instance

instance : Std.LawfulEqCmp orderComponents := by
  rw [orderComponents_eq]
  infer_instance

theorem order_eq_iff {p q : Path} : p.order q = .eq ↔ p.components = q.components := by
  rw [order]
  exact Std.LawfulEqCmp.compare_eq_iff_eq

instance : Std.TransCmp order where
  eq_swap := by
    intro p q
    rw [order, order]
    exact Std.OrientedCmp.eq_swap
  isLE_trans := by
    intro p q r lower higher
    rw [order] at lower higher ⊢
    exact Std.TransCmp.isLE_trans lower higher

end Path

end RouteTags
