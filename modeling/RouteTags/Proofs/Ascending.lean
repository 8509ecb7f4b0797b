import Mathlib.Data.List.Basic

namespace RouteTags

section Ascending

variable {α κ : Type} {cmp : κ → κ → Ordering} [Std.TransCmp cmp] {key : α → κ}

theorem ne_of_ascends {k l : κ} (lower : cmp k l = .lt) : k ≠ l := by
  rintro rfl
  have self : cmp k k = .eq := Std.ReflCmp.compare_self
  rw [self] at lower
  cases lower

theorem nodup_of_ascending {xs : List α}
    (ascending : xs.Pairwise fun a b => cmp (key a) (key b) = .lt) : xs.Nodup := by
  refine ascending.imp ?_
  rintro a b lower rfl
  exact ne_of_ascends lower rfl

theorem eq_of_ascending {xs ys : List α}
    (first : xs.Pairwise fun a b => cmp (key a) (key b) = .lt)
    (second : ys.Pairwise fun a b => cmp (key a) (key b) = .lt)
    (same : ∀ a, a ∈ xs ↔ a ∈ ys) : xs = ys := by
  have perm := (List.perm_ext_iff_of_nodup (nodup_of_ascending first)
    (nodup_of_ascending second)).mpr same
  refine perm.eq_of_pairwise ?_ first second
  intro a b _ _ lower higher
  exact absurd higher (Std.OrientedCmp.not_lt_of_lt lower)

theorem eq_of_key {xs : List α} {a b : α}
    (ascending : xs.Pairwise fun a b => cmp (key a) (key b) = .lt)
    (ha : a ∈ xs) (hb : b ∈ xs) (same : key a = key b) : a = b := by
  induction xs with
  | nil => cases ha
  | cons x xs ih =>
    obtain ⟨least, ascending⟩ := List.pairwise_cons.mp ascending
    rcases List.mem_cons.mp ha with firstA | restA
    · rcases List.mem_cons.mp hb with firstB | restB
      · rw [firstA, firstB]
      · rw [firstA] at same
        exact absurd same (ne_of_ascends (least b restB))
    · rcases List.mem_cons.mp hb with firstB | restB
      · rw [firstB] at same
        exact absurd same.symm (ne_of_ascends (least a restA))
      · exact ih ascending restA restB

end Ascending

end RouteTags
