import RouteTags.Proofs.Route.Order
import RouteTags.Tree.Basic

/-! Trees that are sorted when all routes are there. Sorting is stable, so it comes to the same when
each route is put in its place at once. -/
namespace RouteTags

def Leaf.Le (a b : Leaf) : Prop := (a.key.order b.key).isLE = true

variable {a b c : Leaf}

theorem Leaf.not_le_iff : ¬ a.Le b ↔ (b.key.order a.key).isLT = true := by
  have turned : b.key.order a.key = (a.key.order b.key).swap := Std.OrientedCmp.eq_swap
  rw [Le, turned]
  cases a.key.order b.key <;> simp

theorem Leaf.Le.trans (first : a.Le b) (second : b.Le c) : a.Le c :=
  Std.TransCmp.isLE_trans first second

theorem Leaf.Le.of_not (other : ¬ a.Le b) : b.Le a := by
  have lower := not_le_iff.mp other
  rw [Le]
  cases h : b.key.order a.key <;> simp_all

theorem putLeaf_cons_of_le {leaf first : Leaf} (before : leaf.Le first) (rest : List Leaf) :
    putLeaf leaf (first :: rest) = leaf :: first :: rest :=
  if_pos before

theorem putLeaf_cons_of_not_le {leaf first : Leaf} (behind : ¬ leaf.Le first) (rest : List Leaf) :
    putLeaf leaf (first :: rest) = first :: putLeaf leaf rest :=
  if_neg behind

/-- A route behind all that it is not listed before. -/
def insertLeaf (leaf : Leaf) : List Leaf → List Leaf
  | [] => [leaf]
  | first :: rest =>
    if (leaf.key.order first.key).isLT then leaf :: first :: rest else first :: insertLeaf leaf rest

theorem insertLeaf_cons_of_not_le {leaf first : Leaf} (lower : ¬ first.Le leaf) (rest : List Leaf) :
    insertLeaf leaf (first :: rest) = leaf :: first :: rest :=
  if_pos (Leaf.not_le_iff.mp lower)

theorem insertLeaf_cons_of_le {leaf first : Leaf} (before : first.Le leaf) (rest : List Leaf) :
    insertLeaf leaf (first :: rest) = first :: insertLeaf leaf rest :=
  if_neg fun lower => Leaf.not_le_iff.mpr lower before

/-- Putting an early route in front of its equals and a late one behind them can be done in either
order. -/
theorem putLeaf_insertLeaf (early late : Leaf) (leaves : List Leaf) :
    putLeaf early (insertLeaf late leaves) = insertLeaf late (putLeaf early leaves) := by
  induction leaves with
  | nil =>
    by_cases before : early.Le late
    · rw [insertLeaf, putLeaf_cons_of_le before, putLeaf, insertLeaf_cons_of_le before, insertLeaf]
    · rw [insertLeaf, putLeaf_cons_of_not_le before, putLeaf, insertLeaf_cons_of_not_le before]
  | cons first rest ih =>
    by_cases before : early.Le first <;> by_cases lower : first.Le late
    · rw [insertLeaf_cons_of_le lower, putLeaf_cons_of_le before, putLeaf_cons_of_le before,
        insertLeaf_cons_of_le (before.trans lower), insertLeaf_cons_of_le lower]
    · rw [insertLeaf_cons_of_not_le lower, putLeaf_cons_of_le before]
      by_cases both : early.Le late
      · rw [putLeaf_cons_of_le both, insertLeaf_cons_of_le both, insertLeaf_cons_of_not_le lower]
      · rw [putLeaf_cons_of_not_le both, putLeaf_cons_of_le before, insertLeaf_cons_of_not_le both]
    · rw [insertLeaf_cons_of_le lower, putLeaf_cons_of_not_le before,
        putLeaf_cons_of_not_le before, insertLeaf_cons_of_le lower, ih]
    -- With `late` before `first` and `first` before `early` the two do not meet.
    · have both : ¬ early.Le late := fun le => before (le.trans (.of_not lower))
      rw [insertLeaf_cons_of_not_le lower, putLeaf_cons_of_not_le both,
        putLeaf_cons_of_not_le before, insertLeaf_cons_of_not_le lower]

theorem sortLeaves_concat (leaves : List Leaf) (leaf : Leaf) :
    sortLeaves (leaves ++ [leaf]) = insertLeaf leaf (sortLeaves leaves) := by
  induction leaves with
  | nil => rfl
  | cons first rest ih =>
    have whole : ∀ leaves, sortLeaves (first :: leaves) = putLeaf first (sortLeaves leaves) :=
      fun _ => rfl
    rw [List.cons_append, whole, ih, putLeaf_insertLeaf, whole]

def Segment.place (leaf : Leaf) : List String → Segment → Segment
  | [], .node label path methods segments => .node label path (insertLeaf leaf methods) segments
  | next :: labels, .node label path methods segments =>
    .node label path methods
      (alterSegment next (.node next (path ++ "/" ++ next) [] []) (place leaf labels) segments)

@[simp] theorem Segment.label_sort (s : Segment) : s.sort.label = s.label := by
  cases s
  rfl

theorem sortAll_alterSegment {push place : Segment → Segment}
    (sorted : ∀ s, (push s).sort = place s.sort) (next path : String) (segments : List Segment) :
    Segment.sortAll (alterSegment next (.node next path [] []) push segments) =
      alterSegment next (.node next path [] []) place (Segment.sortAll segments) := by
  have fresh : Segment.sort (.node next path [] []) = .node next path [] [] := rfl
  induction segments with
  | nil =>
    simp only [alterSegment, Segment.sortAll, sorted, fresh]
  | cons first rest ih =>
    simp only [Segment.sortAll, alterSegment, Segment.label_sort]
    cases compare next first.label with
    | lt => simp only [Segment.sortAll, sorted, fresh]
    | eq => simp only [Segment.sortAll, sorted]
    | gt => simp only [Segment.sortAll, ih]

theorem sort_push (leaf : Leaf) (labels : List String) (s : Segment) :
    (s.push leaf labels).sort = s.sort.place leaf labels := by
  induction labels generalizing s with
  | nil =>
    cases s
    simp only [Segment.push, Segment.sort, Segment.place, sortLeaves_concat]
  | cons next labels ih =>
    cases s
    simp only [Segment.push, Segment.sort, Segment.place, sortAll_alterSegment ih]

namespace RouteTree

def place (t : RouteTree) (leaf : Leaf) : RouteTree :=
  match labelsOf leaf.key.endpoint with
  | [] => ⟨alterSegment rootLabel (.node rootLabel rootLabel [] []) (Segment.place leaf []) t.roots⟩
  | first :: labels =>
    ⟨alterSegment first (.node first ("/" ++ first) [] []) (Segment.place leaf labels) t.roots⟩

theorem sort_push (t : RouteTree) (leaf : Leaf) : (t.push leaf).sort = t.sort.place leaf := by
  unfold push place
  cases labelsOf leaf.key.endpoint with
  | nil => exact congrArg mk (sortAll_alterSegment (RouteTags.sort_push leaf []) _ _ _)
  | cons first labels =>
    exact congrArg mk (sortAll_alterSegment (RouteTags.sort_push leaf labels) _ _ _)

theorem sort_foldl_push (leaves : List Leaf) (t : RouteTree) :
    (leaves.foldl push t).sort = leaves.foldl place t.sort := by
  induction leaves generalizing t with
  | nil => rfl
  | cons leaf leaves ih => rw [List.foldl_cons, ih, sort_push, List.foldl_cons]

/-- A built tree is that of its routes put in place one after the other. -/
theorem build_eq_foldl_place (backend : List Declaration) (frontend : List Call)
    (index : CrossReference) : build backend frontend index =
      ((firstOfKey [] backend).map (leafOf index frontend)).foldl place empty :=
  sort_foldl_push _ empty

end RouteTree

end RouteTags
