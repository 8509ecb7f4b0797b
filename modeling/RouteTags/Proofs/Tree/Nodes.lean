import RouteTags.Proofs.Ascending
import RouteTags.Proofs.Tree.Sorted

/-! Hanging one route below a node. Siblings are kept in the strict order of their labels at every
depth, so a label names at most one of them; under that invariant hanging a route changes the
routes at the end of its labels and at no other node. -/
namespace RouteTags

def Ascending (segments : List Segment) : Prop :=
  segments.Pairwise fun a b => compare a.label b.label = .lt

inductive Segment.Sorted : Segment → Prop
  | node {label path : String} {methods : List Leaf} {segments : List Segment} :
    Ascending segments → (∀ s ∈ segments, s.Sorted) → Sorted (.node label path methods segments)

def AllSorted (segments : List Segment) : Prop :=
  Ascending segments ∧ ∀ s ∈ segments, s.Sorted

def labelled? (segments : List Segment) (label : String) : Option Segment :=
  segments.find? fun s => s.label == label

def Segment.methodsAt (s : Segment) : List String → List Leaf
  | [] => s.methods
  | label :: labels => ((s.child? label).map fun c => c.methodsAt labels).getD []

/-- What stands where in a list that was altered: the siblings before and after the label, and
between them the sibling of that label, if there is one. -/
structure AlterSplit (label : String) (segments before : List Segment) (old? : Option Segment)
    (after : List Segment) : Prop where
  whole : segments = before ++ (old?.toList ++ after)
  below : ∀ s ∈ before, compare s.label label = .lt
  here : ∀ s ∈ old?, s.label = label
  above : ∀ s ∈ after, compare label s.label = .lt

theorem alterSegment_split {segments : List Segment} (label : String) (fresh : Segment)
    (change : Segment → Segment) (ascending : Ascending segments) :
    ∃ before old? after, AlterSplit label segments before old? after ∧
      alterSegment label fresh change segments = before ++ change (old?.getD fresh) :: after := by
  induction segments with
  | nil => exact ⟨[], none, [], ⟨rfl, by simp, by simp, by simp⟩, rfl⟩
  | cons first rest ih =>
    obtain ⟨least, ascending⟩ := List.pairwise_cons.mp ascending
    unfold alterSegment
    split
    · rename_i lower
      refine ⟨[], none, first :: rest, ⟨rfl, by simp, by simp, ?_⟩, rfl⟩
      intro s hs
      rcases List.mem_cons.mp hs with rfl | hs
      · exact lower
      · exact Std.TransCmp.lt_trans lower (least s hs)
    · rename_i same
      have same : label = first.label := Std.LawfulEqCmp.eq_of_compare same
      refine ⟨[], some first, rest, ⟨rfl, by simp, ?_, ?_⟩, rfl⟩
      · intro s hs
        cases hs
        exact same.symm
      · exact fun s hs => same ▸ least s hs
    · rename_i higher
      obtain ⟨before, old?, after, split, altered⟩ := ih ascending
      refine ⟨first :: before, old?, after, ⟨?_, ?_, split.here, split.above⟩, ?_⟩
      · rw [split.whole, List.cons_append]
      · intro s hs
        rcases List.mem_cons.mp hs with rfl | hs
        · exact Std.OrientedCmp.lt_of_gt higher
        · exact split.below s hs
      · rw [altered, List.cons_append]

theorem labelled?_eq_none {segments : List Segment} {label : String}
    (other : ∀ s ∈ segments, s.label ≠ label) : labelled? segments label = none := by
  simpa [labelled?] using other

namespace AlterSplit

variable {label : String} {segments before after : List Segment} {old? : Option Segment}

theorem before_ne (h : AlterSplit label segments before old? after) :
    ∀ s ∈ before, s.label ≠ label :=
  fun s hs => ne_of_ascends (h.below s hs)

theorem after_ne (h : AlterSplit label segments before old? after) :
    ∀ s ∈ after, s.label ≠ label :=
  fun s hs => (ne_of_ascends (h.above s hs)).symm

theorem labelled?_self (h : AlterSplit label segments before old? after) :
    labelled? segments label = old? := by
  have first := labelled?_eq_none h.before_ne
  have last := labelled?_eq_none h.after_ne
  have here := h.here
  simp only [labelled?] at first last ⊢
  rw [h.whole, List.find?_append, List.find?_append, first, last]
  cases old? with
  | none => rfl
  | some old => simp [here old rfl]

theorem labelled?_put (h : AlterSplit label segments before old? after) {new : Segment}
    (named : new.label = label) (other : String) :
    labelled? (before ++ new :: after) other =
      if other = label then some new else labelled? segments other := by
  have first := labelled?_eq_none h.before_ne
  have here := h.here
  simp only [labelled?] at first ⊢
  by_cases same : other = label
  · subst same
    rw [List.find?_append, first]
    simp [named]
  · have skip : (new.label == other) = false := by simpa [named] using Ne.symm same
    rw [if_neg same, h.whole, List.find?_append, List.find?_cons, skip, List.find?_append,
      List.find?_append]
    cases old? with
    | none => simp
    | some old =>
      have skipOld : (old.label == other) = false := by simpa [here old rfl] using Ne.symm same
      simp [skipOld]

theorem ascending_put (h : AlterSplit label segments before old? after) {new : Segment}
    (named : new.label = label) (ascending : Ascending segments) :
    Ascending (before ++ new :: after) := by
  subst named
  rw [Ascending, h.whole] at ascending
  obtain ⟨first, rest, across⟩ := List.pairwise_append.mp ascending
  obtain ⟨_, last, _⟩ := List.pairwise_append.mp rest
  refine List.pairwise_append.mpr ⟨first, List.pairwise_cons.mpr ⟨h.above, last⟩, ?_⟩
  intro a ha b hb
  rcases List.mem_cons.mp hb with rfl | hb
  · exact h.below a ha
  · exact across a ha b (List.mem_append_right _ hb)

theorem mem_of_mem_put (h : AlterSplit label segments before old? after) {new s : Segment}
    (member : s ∈ before ++ new :: after) : s = new ∨ s ∈ segments := by
  rw [h.whole]
  rcases List.mem_append.mp member with hs | hs
  · exact .inr (List.mem_append_left _ hs)
  · rcases List.mem_cons.mp hs with rfl | hs
    · exact .inl rfl
    · exact .inr (List.mem_append_right _ (List.mem_append_right _ hs))

theorem mem_of_old (h : AlterSplit label segments before old? after) {old : Segment}
    (hold : old ∈ old?) : old ∈ segments := by
  rw [h.whole]
  cases hold
  simp

end AlterSplit

def bare (label path : String) : Segment := .node label path [] []

theorem bare_sorted (label path : String) : (bare label path).Sorted := .node .nil (by simp)

theorem methodsAt_bare (label path : String) (labels : List String) :
    (bare label path).methodsAt labels = [] := by
  cases labels <;> rfl

def methodsIn (segments : List Segment) (label : String) (labels : List String) : List Leaf :=
  ((labelled? segments label).map fun c => c.methodsAt labels).getD []

theorem label_place (leaf : Leaf) (labels : List String) (s : Segment) :
    (Segment.place leaf labels s).label = s.label := by
  cases s
  cases labels <;> rfl

/-- `t` is the node `s` with one more route, at the end of these labels. -/
structure Hung (leaf : Leaf) (labels : List String) (s t : Segment) : Prop where
  sorted : t.Sorted
  methodsAt : ∀ target, t.methodsAt target =
    if target = labels then insertLeaf leaf (s.methodsAt target) else s.methodsAt target
  leaves : t.leaves.Perm (leaf :: s.leaves)

structure HungIn (leaf : Leaf) (next : String) (labels : List String) (ss ts : List Segment) :
    Prop where
  sorted : AllSorted ts
  methodsIn : ∀ label target, methodsIn ts label target =
    if label = next ∧ target = labels then insertLeaf leaf (methodsIn ss label target)
    else methodsIn ss label target
  leaves : (Segment.leavesOf ts).Perm (leaf :: Segment.leavesOf ss)

theorem insertLeaf_perm (leaf : Leaf) (leaves : List Leaf) :
    (insertLeaf leaf leaves).Perm (leaf :: leaves) := by
  induction leaves with
  | nil => exact .refl _
  | cons first rest ih =>
    unfold insertLeaf
    split
    · exact .refl _
    · exact (ih.cons first).trans (.swap leaf first rest)

theorem leavesOf_append (ss ts : List Segment) :
    Segment.leavesOf (ss ++ ts) = Segment.leavesOf ss ++ Segment.leavesOf ts := by
  induction ss with
  | nil => rfl
  | cons s ss ih => simp only [List.cons_append, Segment.leavesOf, ih, List.append_assoc]

theorem alterSegment_hung {leaf : Leaf} {labels : List String} {change : Segment → Segment}
    (hung : ∀ s : Segment, s.Sorted → Hung leaf labels s (change s))
    (keeps : ∀ s, (change s).label = s.label) (next path : String) {segments : List Segment}
    (sorted : AllSorted segments) :
    HungIn leaf next labels segments (alterSegment next (bare next path) change segments) := by
  obtain ⟨before, old?, after, split, altered⟩ :=
    alterSegment_split next (bare next path) change sorted.1
  have listed : Segment.leavesOf segments = Segment.leavesOf before ++
      (Segment.leavesOf old?.toList ++ Segment.leavesOf after) := by
    rw [split.whole, leavesOf_append, leavesOf_append]
  -- The sibling that is changed has the label, and shows what was at the label before.
  have chosen : (old?.getD (bare next path)).Sorted ∧ (old?.getD (bare next path)).label = next ∧
      (∀ target, (old?.getD (bare next path)).methodsAt target = methodsIn segments next target) ∧
      Segment.leavesOf segments = Segment.leavesOf before ++
        ((old?.getD (bare next path)).leaves ++ Segment.leavesOf after) := by
    simp only [methodsIn, split.labelled?_self, listed]
    cases old? with
    | none => exact ⟨bare_sorted next path, rfl, methodsAt_bare next path, rfl⟩
    | some old =>
      refine ⟨sorted.2 old (split.mem_of_old rfl), split.here old rfl, fun _ => rfl, ?_⟩
      simp [Segment.leavesOf]
  obtain ⟨chosenSorted, chosenLabel, chosenMethods, chosenLeaves⟩ := chosen
  have changed := hung _ chosenSorted
  have named := (keeps (old?.getD (bare next path))).trans chosenLabel
  rw [altered]
  constructor
  · refine ⟨split.ascending_put named sorted.1, ?_⟩
    intro s hs
    rcases split.mem_of_mem_put hs with rfl | hs
    · exact changed.sorted
    · exact sorted.2 s hs
  · intro label target
    by_cases same : label = next
    · subst same
      simp only [methodsIn, split.labelled?_put named, if_true, Option.map_some, Option.getD_some,
        changed.methodsAt, true_and]
      rw [chosenMethods]
      rfl
    · simp [methodsIn, split.labelled?_put named, same]
  · rw [chosenLeaves, leavesOf_append]
    have inside := (changed.leaves.append_right (Segment.leavesOf after)).append_left
      (Segment.leavesOf before)
    exact inside.trans List.perm_middle

theorem place_hung (leaf : Leaf) (labels : List String) {s : Segment} (sorted : s.Sorted) :
    Hung leaf labels s (Segment.place leaf labels s) := by
  induction labels generalizing s with
  | nil =>
    cases sorted with
    | node ascending below =>
      refine ⟨.node ascending below, ?_, ?_⟩
      · intro target
        cases target <;> rfl
      · exact (insertLeaf_perm leaf _).append_right _
  | cons next labels ih =>
    cases sorted with
    | @node label path methods segments ascending below =>
      have placed := alterSegment_hung (fun s => ih (s := s)) (label_place leaf labels) next
        (path ++ "/" ++ next) ⟨ascending, below⟩
      refine ⟨.node placed.sorted.1 placed.sorted.2, ?_, ?_⟩
      · intro target
        cases target with
        | nil => rfl
        | cons label target =>
          simp only [List.cons.injEq]
          exact placed.methodsIn label target
      · exact (placed.leaves.append_left methods).trans List.perm_middle

end RouteTags
