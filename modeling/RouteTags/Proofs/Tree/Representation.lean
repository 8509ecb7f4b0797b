import RouteTags.Proofs.Tree.Outline
import Mathlib.Data.List.Induction

namespace RouteTags

theorem labelled?_of_mem {segments : List Segment} (ascending : Ascending segments) {s : Segment}
    (member : s ∈ segments) : labelled? segments s.label = some s := by
  have there : (labelled? segments s.label).isSome = true :=
    List.find?_isSome.mpr ⟨s, member, by simp⟩
  obtain ⟨found, search⟩ := Option.isSome_iff_exists.mp there
  have named : found.label = s.label := by simpa using List.find?_some search
  exact search.trans (congrArg some
    (eq_of_key ascending (List.mem_of_find?_eq_some search) member named))

namespace RouteTree

inductive Stands (t : RouteTree) : List String → Segment → Prop
  | top {s : Segment} : s ∈ t.roots → Stands t [s.label] s
  | under {labels : List String} {s c : Segment} :
    Stands t labels s → c ∈ s.segments → Stands t (labels ++ [c.label]) c

variable {t : RouteTree} {labels : List String} {s : Segment}

theorem Stands.ne_nil (h : t.Stands labels s) : labels ≠ [] := by
  cases h <;> simp

theorem find?_singleton (t : RouteTree) (label : String) :
    t.find? [label] = labelled? t.roots label :=
  Option.bind_fun_some (labelled? t.roots label)

theorem find?_concat (t : RouteTree) {labels : List String} (nonempty : labels ≠ [])
    (label : String) : t.find? (labels ++ [label]) =
      (t.find? labels).bind fun s => labelled? s.segments label := by
  cases labels with
  | nil => exact absurd rfl nonempty
  | cons first rest =>
    have steps : ∀ s : Segment, (rest ++ [label]).foldlM Segment.child? s =
        (rest.foldlM Segment.child? s).bind fun c => labelled? c.segments label := by
      intro s
      rw [List.foldlM_append]
      exact Option.bind_congr fun c _ => Option.bind_fun_some (labelled? c.segments label)
    simp only [List.cons_append, find?, Bind.bindLeft, Option.bind_eq_bind, steps,
      Option.bind_assoc]

structure Standing (labels : List String) (s : Segment) : Prop where
  grown : s.Grown
  place : labels = [rootLabel] ∧ s.AtSlash ∨
    (∀ label ∈ labels, PathLabel label) ∧ ∃ above, labels = above ++ [s.label] ∧ s.Shaped above

theorem Shaped.standing (shaped : t.Shaped) (h : t.Stands labels s) : Standing labels s := by
  induction h with
  | @top s member =>
    refine ⟨shaped.grown s member, ?_⟩
    rcases shaped.roots s member with slash | below
    · exact .inl ⟨congrArg (fun label => [label]) slash.label, slash⟩
    · refine .inr ⟨?_, [], rfl, below⟩
      simpa using below.pathLabel
  | @under labels s c _ member ih =>
    obtain ⟨grown, place⟩ := ih
    refine ⟨grown.child member, ?_⟩
    rcases place with ⟨_, slash⟩ | ⟨plain, above, rfl, below⟩
    · rw [slash.alone] at member
      cases member
    · have child := below.child member
      refine .inr ⟨?_, _, rfl, child⟩
      intro label inside
      rcases List.mem_append.mp inside with old | own
      · exact plain label old
      · exact List.mem_singleton.mp own ▸ child.pathLabel

namespace Standing

theorem ascending (h : Standing labels s) : Ascending s.segments := by
  rcases h.place with ⟨_, slash⟩ | ⟨_, _, _, shaped⟩
  · rw [slash.alone]
    exact .nil
  · exact shaped.ascending

theorem listed (h : Standing labels s) : Listed s.methods := by
  rcases h.place with ⟨_, slash⟩ | ⟨_, _, _, shaped⟩
  · exact slash.listed
  · exact shaped.listed

theorem spelled (h : Standing labels s) :
    labels = [rootLabel] ∧ s.path = rootLabel ∧ s.segments = [] ∨
      (∀ label ∈ labels, PathLabel label) ∧ s.path = pathAlong labels ∧
        segmentsOf s.path = labels := by
  rcases h.place with ⟨top, slash⟩ | ⟨plain, above, own, shaped⟩
  · exact .inl ⟨top, slash.path, slash.alone⟩
  · have path : s.path = pathAlong labels := own ▸ shaped.path
    exact .inr ⟨plain, path, path ▸ segmentsOf_pathAlong
      (fun label h => (plain label h).nonempty) fun label h => (plain label h).slashless⟩

end Standing

theorem Shaped.find?_of_stands (shaped : t.Shaped) (h : t.Stands labels s) :
    t.find? labels = some s := by
  induction h with
  | top member =>
    rw [find?_singleton]
    exact labelled?_of_mem shaped.ascending member
  | under above member ih =>
    rw [find?_concat t above.ne_nil, ih]
    exact labelled?_of_mem (shaped.standing above).ascending member

theorem stands_of_find? (found : t.find? labels = some s) : t.Stands labels s := by
  have named : ∀ {segments : List Segment} {label : String} {c : Segment},
      labelled? segments label = some c → c ∈ segments ∧ c.label = label := fun search =>
    ⟨List.mem_of_find?_eq_some search, by simpa using List.find?_some search⟩
  induction labels using List.reverseRecOn generalizing s with
  | nil => cases found
  | append_singleton above label ih =>
    cases above with
    | nil =>
      rw [List.nil_append, find?_singleton] at found
      obtain ⟨member, rfl⟩ := named found
      exact .top member
    | cons first rest =>
      rw [find?_concat t (by simp)] at found
      obtain ⟨parent, parentFound, search⟩ := Option.bind_eq_some_iff.mp found
      obtain ⟨member, rfl⟩ := named search
      exact .under (ih parentFound) member

theorem Shaped.stands_iff (shaped : t.Shaped) : t.Stands labels s ↔ t.find? labels = some s :=
  ⟨shaped.find?_of_stands, stands_of_find?⟩

theorem leaves_sublist {c : Segment} {segments : List Segment} (member : c ∈ segments) :
    c.leaves.Sublist (Segment.leavesOf segments) := by
  induction segments with
  | nil => cases member
  | cons first rest ih =>
    rw [Segment.leavesOf]
    rcases List.mem_cons.mp member with rfl | member
    · exact List.sublist_append_left _ _
    · exact (ih member).trans (List.sublist_append_right _ _)

theorem Stands.leaves_sublist (h : t.Stands labels s) : s.leaves.Sublist t.leaves := by
  induction h with
  | top member => exact RouteTree.leaves_sublist member
  | @under labels s c _ member ih =>
    cases s
    exact ((RouteTree.leaves_sublist member).trans (List.sublist_append_right _ _)).trans ih

theorem Stands.methods_sublist (h : t.Stands labels s) : s.methods.Sublist t.leaves := by
  refine List.Sublist.trans ?_ h.leaves_sublist
  cases s
  exact List.sublist_append_left _ _

theorem Shaped.methods_ascending (shaped : t.Shaped) (distinct : (t.leaves.map Leaf.key).Nodup)
    (h : t.Stands labels s) : s.methods.Pairwise fun a b => a.key.order b.key = .lt :=
  (shaped.standing h).listed.ascending ((h.methods_sublist.map Leaf.key).nodup distinct)

theorem Shaped.opens (shaped : t.Shaped) {items : List Item} (made : t.outline = some items) :
    ∀ i ∈ Item.preorderOf items, i.expandable = !i.children.isEmpty := by
  rw [outline, Segment.outlineOf_eq_mapM, mapM_eq_some_iff] at made
  intro i member
  obtain ⟨s, hs, top, first, inside⟩ := mem_preorderOf made member
  exact (shaped.grown s hs).opens first i inside

/-- Every node of a built tree is found by the labels on the way to it. These are labels of paths,
and its path spells them, unless it is the node of `/`, which stands at the top alone. Its nodes are
in the strict order of their labels and its routes in that of their keys, and there is a route in it
or below. There is an outline unless a call of some route is on the last line; in the outline an
item opens when there is something in it, and the method items from top to bottom are the leaves. -/
theorem build_representation (backend : List Declaration) (frontend : List Call)
    (index : CrossReference) :
    let t := build backend frontend index
    Ascending t.roots ∧
    (∀ labels s, t.Stands labels s ↔ t.find? labels = some s) ∧
    (∀ labels s, t.Stands labels s →
      (labels = [rootLabel] ∧ s.path = rootLabel ∧ s.segments = [] ∨
        (∀ label ∈ labels, PathLabel label) ∧ s.path = pathAlong labels ∧
          segmentsOf s.path = labels) ∧
      Ascending s.segments ∧
      (s.methods.Pairwise fun a b => a.key.order b.key = .lt) ∧
      ∃ leaf, leaf ∈ s.leaves) ∧
    (t.outline = none ↔ ∃ leaf ∈ t.leaves, ∃ c ∈ leaf.calls, c.locator.line = some lastLine) ∧
    ∀ items, t.outline = some items →
      (∀ i ∈ Item.preorderOf items, i.expandable = !i.children.isEmpty) ∧
      ((Item.preorderOf items).filter Item.isMethod).map some = t.leaves.map Leaf.outline := by
  intro t
  have shaped : t.Shaped := build_shaped backend frontend index
  have distinct : (t.leaves.map Leaf.key).Nodup := leafKeys_nodup backend frontend index
  refine ⟨shaped.ascending, fun _ _ => shaped.stands_iff, ?_, t.outline_eq_none_iff,
    fun items made => ⟨shaped.opens made, methods_preorderOf made⟩⟩
  intro labels s stands
  have standing := shaped.standing stands
  exact ⟨standing.spelled, standing.ascending, shaped.methods_ascending distinct stands,
    standing.grown.exists_leaf⟩

end RouteTree

end RouteTags
