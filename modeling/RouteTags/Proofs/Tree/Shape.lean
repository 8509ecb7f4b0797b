import RouteTags.Proofs.Tree.Labels
import RouteTags.Proofs.Tree.Placement

/-! The shape of a tree while it is built. Each node carries its own label and the path that the
labels down to it spell, its routes are listed by key and its nodes by label, and there is a route
in it or below. Only the node of `/`, which spells no label, stands apart, at the top. -/
namespace RouteTags

def Listed (methods : List Leaf) : Prop :=
  methods.Pairwise fun a b => (a.key.order b.key).isLE = true

theorem insertLeaf_ne_nil (leaf : Leaf) (methods : List Leaf) : insertLeaf leaf methods ≠ [] := by
  intro none
  have member := (insertLeaf_perm leaf methods).mem_iff.mpr List.mem_cons_self
  rw [none] at member
  cases member

theorem listed_insertLeaf (leaf : Leaf) {methods : List Leaf} (listed : Listed methods) :
    Listed (insertLeaf leaf methods) := by
  induction methods with
  | nil => exact List.pairwise_singleton _ leaf
  | cons first rest ih =>
    obtain ⟨least, later⟩ := List.pairwise_cons.mp listed
    unfold insertLeaf
    split
    · rename_i lower
      have before : (leaf.key.order first.key).isLE = true := by
        cases h : leaf.key.order first.key <;> simp_all
      refine List.pairwise_cons.mpr ⟨?_, listed⟩
      intro other member
      rcases List.mem_cons.mp member with rfl | member
      · exact before
      · exact Std.TransCmp.isLE_trans before (least other member)
    · rename_i higher
      refine List.pairwise_cons.mpr ⟨?_, ih later⟩
      intro other member
      rcases List.mem_cons.mp ((insertLeaf_perm leaf rest).mem_iff.mp member) with rfl | member
      · have turned : first.key.order other.key = (other.key.order first.key).swap :=
          Std.OrientedCmp.eq_swap
        rw [turned]
        cases h : other.key.order first.key <;> simp_all
      · exact least other member

theorem Listed.ascending {methods : List Leaf} (listed : Listed methods)
    (distinct : (methods.map Leaf.key).Nodup) :
    methods.Pairwise fun a b => a.key.order b.key = .lt := by
  refine (List.Pairwise.and listed (List.pairwise_map.mp distinct)).imp ?_
  rintro a b ⟨le, other⟩
  cases h : a.key.order b.key with
  | lt => rfl
  | eq => exact absurd (Std.LawfulEqCmp.eq_of_compare h) other
  | gt => simp [h] at le

/-- A node below the labels `above`, and all below it. -/
inductive Segment.Shaped : List String → Segment → Prop
  | node {above : List String} {label : String} {methods : List Leaf} {segments : List Segment} :
    PathLabel label → Listed methods → Ascending segments →
    (∀ s ∈ segments, s.Shaped (above ++ [label])) →
    Shaped above (.node label (pathAlong (above ++ [label])) methods segments)

inductive Segment.Grown : Segment → Prop
  | node {label path : String} {methods : List Leaf} {segments : List Segment} :
    (methods ≠ [] ∨ segments ≠ []) → (∀ s ∈ segments, s.Grown) →
    Grown (.node label path methods segments)

structure Segment.AtSlash (s : Segment) : Prop where
  label : s.label = rootLabel
  path : s.path = rootLabel
  listed : Listed s.methods
  alone : s.segments = []

namespace Segment

theorem Shaped.pathLabel {above : List String} {s : Segment} (h : s.Shaped above) :
    PathLabel s.label := by
  cases h
  assumption

theorem Shaped.path {above : List String} {s : Segment} (h : s.Shaped above) :
    s.path = pathAlong (above ++ [s.label]) := by
  cases h
  rfl

theorem Shaped.listed {above : List String} {s : Segment} (h : s.Shaped above) :
    Listed s.methods := by
  cases h
  assumption

theorem Shaped.ascending {above : List String} {s : Segment} (h : s.Shaped above) :
    Ascending s.segments := by
  cases h
  assumption

theorem Shaped.child {above : List String} {s c : Segment} (h : s.Shaped above)
    (member : c ∈ s.segments) : c.Shaped (above ++ [s.label]) := by
  cases h with
  | node _ _ _ below => exact below c member

theorem Shaped.sorted {above : List String} {s : Segment} (h : s.Shaped above) : s.Sorted := by
  induction h with
  | node _ _ ascending _ ih => exact .node ascending ih

theorem AtSlash.sorted {s : Segment} (h : s.AtSlash) : s.Sorted := by
  obtain ⟨_, _, _, alone⟩ := h
  cases s
  cases alone
  exact .node .nil (by simp)

theorem Grown.child {s c : Segment} (h : s.Grown) (member : c ∈ s.segments) : c.Grown := by
  cases h with
  | node _ below => exact below c member

theorem mem_leavesOf {s : Segment} {ss : List Segment} {leaf : Leaf} (member : s ∈ ss)
    (inside : leaf ∈ s.leaves) : leaf ∈ leavesOf ss := by
  induction ss with
  | nil => cases member
  | cons first rest ih =>
    rw [leavesOf, List.mem_append]
    rcases List.mem_cons.mp member with rfl | member
    · exact .inl inside
    · exact .inr (ih member)

theorem Grown.exists_leaf {s : Segment} (h : s.Grown) : ∃ leaf, leaf ∈ s.leaves := by
  induction h with
  | @node label path methods segments filled _ ih =>
    rcases filled with filled | filled
    · obtain ⟨leaf, member⟩ := List.exists_mem_of_ne_nil _ filled
      exact ⟨leaf, List.mem_append_left _ member⟩
    · obtain ⟨c, member⟩ := List.exists_mem_of_ne_nil _ filled
      obtain ⟨leaf, inside⟩ := ih c member
      exact ⟨leaf, List.mem_append_right _ (mem_leavesOf member inside)⟩

end Segment

theorem alterSegment_keeps {P : Segment → Prop} {label : String} {fresh : Segment}
    {change : Segment → Segment} {segments : List Segment} (ascending : Ascending segments)
    (all : ∀ s ∈ segments, P s) (new : (change fresh).label = label ∧ P (change fresh))
    (changed : ∀ s ∈ segments, s.label = label → (change s).label = label ∧ P (change s)) :
    Ascending (alterSegment label fresh change segments) ∧
    alterSegment label fresh change segments ≠ [] ∧
    ∀ s ∈ alterSegment label fresh change segments, P s := by
  obtain ⟨before, old?, after, split, altered⟩ := alterSegment_split label fresh change ascending
  have good : (change (old?.getD fresh)).label = label ∧ P (change (old?.getD fresh)) := by
    cases old? with
    | none => exact new
    | some old => exact changed old (split.mem_of_old rfl) (split.here old rfl)
  rw [altered]
  refine ⟨split.ascending_put good.1 ascending, by simp, ?_⟩
  intro s member
  rcases split.mem_of_mem_put member with rfl | member
  · exact good.2
  · exact all s member

theorem bare_shaped (above : List String) {label : String} (plain : PathLabel label) :
    (bare label (pathAlong (above ++ [label]))).Shaped above :=
  .node plain .nil .nil (by simp)

theorem place_shaped (leaf : Leaf) {labels : List String}
    (plain : ∀ label ∈ labels, PathLabel label) {above : List String} {s : Segment}
    (shaped : s.Shaped above) : (Segment.place leaf labels s).Shaped above := by
  induction labels generalizing above s with
  | nil =>
    cases shaped with
    | node own listed ascending below =>
      exact .node own (listed_insertLeaf leaf listed) ascending below
  | cons next labels ih =>
    obtain ⟨plainNext, plainRest⟩ := List.forall_mem_cons.mp plain
    cases shaped with
    | @node _ label methods segments own listed ascending below =>
      have spelled : pathAlong (above ++ [label] ++ [next]) =
          pathAlong (above ++ [label]) ++ "/" ++ next := pathAlong_concat (by simp) next
      have fresh := bare_shaped (above ++ [label]) plainNext
      rw [spelled] at fresh
      obtain ⟨ascending', -, below'⟩ := alterSegment_keeps ascending below
        ⟨label_place leaf labels _, ih plainRest fresh⟩
        fun s member named => ⟨(label_place leaf labels s).trans named, ih plainRest (below s member)⟩
      exact .node own listed ascending' below'

theorem place_grown (leaf : Leaf) (labels : List String) {s : Segment} (sorted : s.Sorted)
    (grown : ∀ c ∈ s.segments, c.Grown) : (Segment.place leaf labels s).Grown := by
  induction labels generalizing s with
  | nil =>
    cases s
    exact .node (.inl (insertLeaf_ne_nil leaf _)) grown
  | cons next labels ih =>
    cases sorted with
    | @node label path methods segments ascending below =>
      have fresh := ih (bare_sorted next (path ++ "/" ++ next)) (by simp [bare, Segment.segments])
      obtain ⟨-, filled, grown'⟩ := alterSegment_keeps ascending grown
        ⟨label_place leaf labels _, fresh⟩
        fun s member named => ⟨(label_place leaf labels s).trans named,
          ih (below s member) fun c inside => (grown s member).child inside⟩
      exact .node (.inr filled) grown'

theorem place_atSlash (leaf : Leaf) {s : Segment} (slash : s.AtSlash) :
    (Segment.place leaf [] s).AtSlash := by
  obtain ⟨label, path, listed, alone⟩ := slash
  cases s
  exact ⟨label, path, listed_insertLeaf leaf listed, alone⟩

namespace RouteTree

structure Shaped (t : RouteTree) : Prop where
  ascending : Ascending t.roots
  roots : ∀ s ∈ t.roots, s.AtSlash ∨ s.Shaped []
  grown : ∀ s ∈ t.roots, s.Grown

theorem empty_shaped : empty.Shaped := ⟨.nil, by simp [empty], by simp [empty]⟩

variable {t : RouteTree}

theorem Shaped.sorted (h : t.Shaped) : AllSorted t.roots := by
  refine ⟨h.ascending, ?_⟩
  intro s member
  rcases h.roots s member with slash | shaped
  · exact slash.sorted
  · exact shaped.sorted

theorem Shaped.alter (h : t.Shaped) {leaf : Leaf} {label path : String} {labels : List String}
    (new : (Segment.place leaf labels (bare label path)).AtSlash ∨
      (Segment.place leaf labels (bare label path)).Shaped [])
    (changed : ∀ s ∈ t.roots, s.label = label →
      (Segment.place leaf labels s).AtSlash ∨ (Segment.place leaf labels s).Shaped []) :
    Shaped ⟨alterSegment label (bare label path) (Segment.place leaf labels) t.roots⟩ := by
  have started : (Segment.place leaf labels (bare label path)).Grown :=
    place_grown leaf labels (bare_sorted label path) (by simp [bare, Segment.segments])
  have grown : ∀ s ∈ t.roots, (Segment.place leaf labels s).Grown := fun s member =>
    place_grown leaf labels (h.sorted.2 s member) fun c inside => (h.grown s member).child inside
  have together : ∀ s ∈ t.roots, (s.AtSlash ∨ s.Shaped []) ∧ s.Grown := fun s member =>
    ⟨h.roots s member, h.grown s member⟩
  obtain ⟨ascending, -, both⟩ := alterSegment_keeps h.ascending together
    ⟨label_place leaf labels _, new, started⟩
    fun s member named => ⟨(label_place leaf labels s).trans named, changed s member named,
      grown s member⟩
  exact ⟨ascending, fun s member => (both s member).1, fun s member => (both s member).2⟩

theorem Shaped.place (h : t.Shaped) (leaf : Leaf) : (t.place leaf).Shaped := by
  have plain : ∀ label ∈ labelsOf leaf.key.endpoint, PathLabel label :=
    fun label => pathLabel_of_mem_labelsOf
  unfold RouteTree.place
  cases home : labelsOf leaf.key.endpoint with
  | nil =>
    apply h.alter
    · exact .inl (place_atSlash leaf ⟨rfl, rfl, .nil, rfl⟩)
    · intro s member named
      rcases h.roots s member with slash | shaped
      · exact .inl (place_atSlash leaf slash)
      · exact absurd named shaped.pathLabel.ne_rootLabel
  | cons first labels =>
    rw [home] at plain
    obtain ⟨plainFirst, plainRest⟩ := List.forall_mem_cons.mp plain
    apply h.alter
    · have fresh := bare_shaped [] plainFirst
      rw [List.nil_append, pathAlong_singleton] at fresh
      exact .inr (place_shaped leaf plainRest fresh)
    · intro s member named
      rcases h.roots s member with slash | shaped
      · exact absurd (named.symm.trans slash.label) plainFirst.ne_rootLabel
      · exact .inr (place_shaped leaf plainRest shaped)

theorem Shaped.foldl_place (h : t.Shaped) (leaves : List Leaf) :
    (leaves.foldl RouteTree.place t).Shaped := by
  induction leaves generalizing t with
  | nil => exact h
  | cons leaf leaves ih =>
    rw [List.foldl_cons]
    exact ih (h.place leaf)

theorem build_shaped (backend : List Declaration) (frontend : List Call) (index : CrossReference) :
    (build backend frontend index).Shaped := by
  rw [build_eq_foldl_place]
  exact empty_shaped.foldl_place _

end RouteTree

end RouteTags
