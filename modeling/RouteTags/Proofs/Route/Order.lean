import RouteTags.Route.Verb

namespace RouteTags.RouteKey

theorem order_eq_compareLex : order = compareLex
    (compareLex (compareOn fun k => Verb.rank k.method) (compareOn method)) (compareOn endpoint) :=
  rfl

instance : Std.TransCmp order := by
  rw [order_eq_compareLex]
  infer_instance

instance : Std.LawfulEqCmp order where
  eq_of_compare := by
    intro a b same
    rw [order, Ordering.then_eq_eq, Verb.order, Ordering.then_eq_eq] at same
    obtain ⟨⟨_, method⟩, endpoint⟩ := same
    cases a
    cases b
    rw [RouteKey.mk.injEq]
    exact ⟨Std.LawfulEqCmp.eq_of_compare method, Std.LawfulEqCmp.eq_of_compare endpoint⟩

end RouteTags.RouteKey
