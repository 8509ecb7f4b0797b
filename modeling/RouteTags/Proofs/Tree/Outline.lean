import RouteTags.Proofs.Tree.Shape
import RouteTags.Tree.Outline

namespace RouteTags

theorem mapM_eq_some_iff {α β : Type} {f : α → Option β} {xs : List α} {ys : List β} :
    xs.mapM f = some ys ↔ xs.map f = ys.map some := by
  induction xs generalizing ys with
  | nil => cases ys <;> simp
  | cons x xs ih =>
    rw [List.mapM_cons, List.map_cons]
    simp only [Option.bind_eq_bind, Option.bind_eq_some_iff, ih, Option.pure_def,
      Option.some.injEq]
    constructor
    · rintro ⟨y, made, rest, others, rfl⟩
      rw [made, others, List.map_cons]
    · intro whole
      cases ys with
      | nil => cases whole
      | cons y ys =>
        obtain ⟨made, others⟩ := List.cons.inj whole
        exact ⟨y, made, ys, others, rfl⟩

theorem mapM_eq_none_iff {α β : Type} {f : α → Option β} {xs : List α} :
    xs.mapM f = none ↔ ∃ x ∈ xs, f x = none := by
  induction xs with
  | nil => simp
  | cons x xs ih =>
    rw [List.mapM_cons]
    cases made : f x with
    | none => simp [made]
    | some y =>
      cases others : xs.mapM f with
      | none => simpa [made, others] using ih
      | some ys => simpa [made, others] using ih

def lastLine : UInt32 := 4294967295

theorem ne_lastLine_iff {line : UInt32} : line ≠ lastLine ↔ line.toNat + 1 < UInt32.size := by
  have bound : line.toNat < UInt32.size := line.toNat_lt
  have last : line = lastLine ↔ line.toNat = 4294967295 := UInt32.toNat_inj.symm
  have size : UInt32.size = 4294967296 := rfl
  rw [Ne, last]
  omega

theorem oneBased_lastLine : oneBased lastLine = none := by decide

theorem oneBased_of_ne {line : UInt32} (other : line ≠ lastLine) :
    oneBased line = some (line + 1) ∧ (line + 1).toNat = line.toNat + 1 := by
  have small := ne_lastLine_iff.mp other
  refine ⟨if_pos small, ?_⟩
  exact (UInt32.toNat_add line 1).trans (Nat.mod_eq_of_lt small)

def Locator.shownName (l : Locator) : String := l.path.fileName?.getD l.path.text

theorem Locator.describe_of_ne {l : Locator} {line : UInt32} (placed : l.line = some line)
    (other : line ≠ lastLine) :
    l.describe = some (l.shownName ++ ":" ++ toString (line.toNat + 1)) := by
  obtain ⟨counted, number⟩ := oneBased_of_ne other
  simp only [describe, placed, counted, Option.map_some, number, shownName]

theorem Locator.describe_eq_none_iff {l : Locator} :
    l.describe = none ↔ l.line = some lastLine := by
  cases placed : l.line with
  | none => simp [describe, placed]
  | some line =>
    rw [Option.some.injEq]
    constructor
    · intro missing
      by_contra other
      rw [describe_of_ne placed other] at missing
      cases missing
    · rintro rfl
      simp [describe, placed, oneBased_lastLine]

mutual

def Item.preorder : Item → List Item
  | .item kind label description expandable locator children =>
    .item kind label description expandable locator children :: Item.preorderOf children

def Item.preorderOf : List Item → List Item
  | [] => []
  | i :: rest => i.preorder ++ Item.preorderOf rest

end

def Item.isMethod (i : Item) : Bool := i.kind = .method

def Item.isCall (i : Item) : Bool := i.kind = .call

theorem Item.preorderOf_append (is js : List Item) :
    preorderOf (is ++ js) = preorderOf is ++ preorderOf js := by
  induction is with
  | nil => rfl
  | cons i is ih => simp only [List.cons_append, preorderOf, ih, List.append_assoc]

theorem Mention.outline_eq_some_iff {c : Call} {i : Item} : c.outline = some i ↔
    ∃ description, c.locator.describe = some description ∧
      i = .item .call c.key.display description false (some c.locator) [] := by
  rw [outline, RouteNode.itemOver, Option.map_eq_some_iff]
  exact exists_congr fun _ => and_congr_right fun _ => eq_comm

theorem Mention.outline_eq_none_iff {c : Call} :
    c.outline = none ↔ c.locator.line = some lastLine := by
  rw [outline, RouteNode.itemOver, Option.map_eq_none_iff]
  exact Locator.describe_eq_none_iff

theorem Leaf.outline_eq_some_iff {leaf : Leaf} {i : Item} : leaf.outline = some i ↔
    ∃ below, leaf.calls.map Mention.outline = below.map some ∧
      i = .item .method leaf.key.method leaf.key.endpoint (!leaf.calls.isEmpty)
        (some leaf.declaration.locator) below := by
  rw [outline, Option.bind_eq_bind, Option.bind_eq_some_iff]
  simp only [mapM_eq_some_iff]
  exact exists_congr fun _ => and_congr_right fun _ => Option.some_inj.trans eq_comm

theorem Leaf.outline_eq_none_iff {leaf : Leaf} :
    leaf.outline = none ↔ ∃ c ∈ leaf.calls, c.locator.line = some lastLine := by
  have filled : ∀ below, (RouteNode.method leaf).itemOver below ≠ none := fun _ => Option.some_ne_none _
  rw [outline, Option.bind_eq_bind, Option.bind_eq_none_iff]
  simp only [filled, imp_false, ← Option.eq_none_iff_forall_ne_some, mapM_eq_none_iff,
    Mention.outline_eq_none_iff]

theorem Segment.outlineOf_eq_mapM (ss : List Segment) : outlineOf ss = ss.mapM outline := by
  induction ss with
  | nil => rfl
  | cons s rest ih =>
    rw [outlineOf, List.mapM_cons, ih]
    rfl

theorem Segment.outline_node_eq_some_iff {label path : String} {methods : List Leaf}
    {segments : List Segment} {i : Item} : (node label path methods segments).outline = some i ↔
      ∃ own below, methods.map Leaf.outline = own.map some ∧ outlineOf segments = some below ∧
        i = .item .segment label path true none (own ++ below) := by
  rw [outline]
  simp only [Option.bind_eq_bind, Option.bind_eq_some_iff, mapM_eq_some_iff]
  constructor
  · rintro ⟨own, made, below, others, whole⟩
    exact ⟨own, below, made, others, (Option.some.inj whole).symm⟩
  · rintro ⟨own, below, made, others, rfl⟩
    exact ⟨own, made, below, others, rfl⟩

theorem RouteNode.outline_eq (n : RouteNode) :
    n.outline = (n.children.mapM outline).bind n.itemOver := by
  cases n with
  | segment s =>
    obtain ⟨label, path, methods, segments⟩ := s
    have own : (methods.map method).mapM outline = methods.mapM Leaf.outline := List.mapM_map
    have below : (segments.map segment).mapM outline = Segment.outlineOf segments :=
      List.mapM_map.trans (Segment.outlineOf_eq_mapM segments).symm
    rw [outline, Segment.outline, children, Segment.methods, Segment.segments, List.mapM_append,
      own, below]
    simp only [Option.bind_eq_bind, Option.bind_assoc, Option.pure_def, Option.bind_some]
  | method leaf =>
    rw [outline, Leaf.outline, children, List.mapM_map]
    rfl
  | call c => rfl

namespace Item

theorem preorderOf_calls {calls : List Call} {items : List Item}
    (made : calls.map Mention.outline = items.map some) :
    preorderOf items = items ∧ (∀ i ∈ items, i.kind = .call ∧ i.expandable = !i.children.isEmpty) := by
  induction calls generalizing items with
  | nil =>
    obtain rfl : items = [] := by simpa using made
    exact ⟨rfl, by simp⟩
  | cons c calls ih =>
    cases items with
    | nil => cases made
    | cons i items =>
      obtain ⟨first, others⟩ := List.cons.inj made
      obtain ⟨description, -, rfl⟩ := Mention.outline_eq_some_iff.mp first
      obtain ⟨flat, each⟩ := ih others
      refine ⟨?_, ?_⟩
      · rw [preorderOf, flat]
        rfl
      · intro i member
        rcases List.mem_cons.mp member with rfl | member
        · exact ⟨rfl, rfl⟩
        · exact each i member

theorem preorder_leaf {leaf : Leaf} {i : Item} (made : leaf.outline = some i) :
    i.isMethod = true ∧ i.isCall = false ∧ (i.expandable = !i.children.isEmpty) ∧
      i.preorder = i :: i.children ∧ leaf.calls.map Mention.outline = i.children.map some := by
  obtain ⟨below, calls, rfl⟩ := Leaf.outline_eq_some_iff.mp made
  have sizes := congrArg List.isEmpty calls
  rw [List.isEmpty_map, List.isEmpty_map] at sizes
  refine ⟨rfl, rfl, ?_, ?_, calls⟩
  · simp only [expandable, children, sizes]
  · rw [preorder, (preorderOf_calls calls).1]
    rfl

theorem methods_of_leaves {leaves : List Leaf} {items : List Item}
    (made : leaves.map Leaf.outline = items.map some) :
    (preorderOf items).filter isMethod = items := by
  induction leaves generalizing items with
  | nil =>
    obtain rfl : items = [] := by simpa using made
    rfl
  | cons leaf leaves ih =>
    cases items with
    | nil => cases made
    | cons i items =>
      obtain ⟨first, others⟩ := List.cons.inj made
      obtain ⟨own, -, -, flat, calls⟩ := preorder_leaf first
      have none : i.children.filter isMethod = [] := by
        refine List.filter_eq_nil_iff.mpr fun c member => ?_
        simp [isMethod, ((preorderOf_calls calls).2 c member).1]
      rw [preorderOf, List.filter_append, flat, List.filter_cons_of_pos own, none, ih others]
      rfl

theorem calls_of_leaves {leaves : List Leaf} {items : List Item}
    (made : leaves.map Leaf.outline = items.map some) :
    ((preorderOf items).filter isCall).map some =
      (leaves.flatMap Leaf.calls).map Mention.outline := by
  induction leaves generalizing items with
  | nil =>
    obtain rfl : items = [] := by simpa using made
    rfl
  | cons leaf leaves ih =>
    cases items with
    | nil => cases made
    | cons i items =>
      obtain ⟨first, others⟩ := List.cons.inj made
      obtain ⟨-, own, -, flat, calls⟩ := preorder_leaf first
      have all : i.children.filter isCall = i.children := by
        refine List.filter_eq_self.mpr fun c member => ?_
        simp [isCall, ((preorderOf_calls calls).2 c member).1]
      rw [preorderOf, List.filter_append, flat, List.filter_cons_of_neg (by simp [own]), all,
        List.map_append, ih others, List.flatMap_cons, List.map_append, calls]

end Item

mutual

/-- Where the items of nodes are passed over, those of the leaves in their order are left. -/
theorem Segment.filter_preorder {p : Item → Bool} (passes : ∀ i, i.kind = .segment → p i = false)
    (s : Segment) {i : Item} (made : s.outline = some i) :
    ∃ items, s.leaves.map Leaf.outline = items.map some ∧
      i.preorder.filter p = (Item.preorderOf items).filter p := by
  cases s with
  | node label path methods segments =>
    obtain ⟨own, below, routes, nodes, rfl⟩ := outline_node_eq_some_iff.mp made
    obtain ⟨others, further, left⟩ := Segment.filter_preorderOf passes segments nodes
    have top := passes (.item .segment label path true none (own ++ below)) rfl
    refine ⟨own ++ others, ?_, ?_⟩
    · rw [leaves, List.map_append, routes, further, List.map_append]
    · rw [Item.preorder, List.filter_cons_of_neg (by simp [top]), Item.preorderOf_append,
        List.filter_append, left, Item.preorderOf_append, List.filter_append]

theorem Segment.filter_preorderOf {p : Item → Bool}
    (passes : ∀ i, i.kind = .segment → p i = false) (ss : List Segment) {nodes : List Item}
    (made : outlineOf ss = some nodes) :
    ∃ items, (leavesOf ss).map Leaf.outline = items.map some ∧
      (Item.preorderOf nodes).filter p = (Item.preorderOf items).filter p := by
  cases ss with
  | nil =>
    cases made
    exact ⟨[], rfl, rfl⟩
  | cons s rest =>
    rw [outlineOf] at made
    simp only [Option.bind_eq_bind, Option.bind_eq_some_iff, Option.some.injEq] at made
    obtain ⟨first, here, others, later, rfl⟩ := made
    obtain ⟨own, routes, top⟩ := Segment.filter_preorder passes s here
    obtain ⟨more, further, left⟩ := Segment.filter_preorderOf passes rest later
    refine ⟨own ++ more, ?_, ?_⟩
    · rw [leavesOf, List.map_append, routes, further, List.map_append]
    · rw [Item.preorderOf, List.filter_append, top, left, Item.preorderOf_append,
        List.filter_append]

end

namespace RouteTree

variable {t : RouteTree} {items : List Item}

theorem methods_preorderOf (made : t.outline = some items) :
    ((Item.preorderOf items).filter Item.isMethod).map some = t.leaves.map Leaf.outline := by
  have passes : ∀ i : Item, i.kind = .segment → i.isMethod = false :=
    fun i node => by simp [Item.isMethod, node]
  obtain ⟨own, routes, left⟩ := Segment.filter_preorderOf passes t.roots made
  rw [left, Item.methods_of_leaves routes]
  exact routes.symm

theorem calls_preorderOf (made : t.outline = some items) :
    ((Item.preorderOf items).filter Item.isCall).map some =
      (t.leaves.flatMap Leaf.calls).map Mention.outline := by
  have passes : ∀ i : Item, i.kind = .segment → i.isCall = false :=
    fun i node => by simp [Item.isCall, node]
  obtain ⟨own, routes, left⟩ := Segment.filter_preorderOf passes t.roots made
  rw [left, Item.calls_of_leaves routes]
  rfl

end RouteTree

mutual

theorem Segment.outline_eq_none_iff (s : Segment) :
    s.outline = none ↔ ∃ leaf ∈ s.leaves, leaf.outline = none := by
  cases s with
  | node label path methods segments =>
    have filled : ∀ below, (RouteNode.segment (node label path methods segments)).itemOver below ≠
        none := fun _ => Option.some_ne_none _
    have below := Segment.outlineOf_eq_none_iff segments
    rw [outline, leaves]
    cases own : methods.mapM Leaf.outline with
    | none =>
      obtain ⟨leaf, member, missing⟩ := mapM_eq_none_iff.mp own
      exact iff_of_true rfl ⟨leaf, List.mem_append_left _ member, missing⟩
    | some routes =>
      have made : ¬ ∃ leaf ∈ methods, leaf.outline = none := by
        rw [← mapM_eq_none_iff, own]
        exact Option.some_ne_none routes
      simp only [Option.bind_eq_bind, Option.bind_some, List.mem_append, or_and_right, exists_or,
        or_iff_right made, ← below]
      cases outlineOf segments with
      | none => simp
      | some nodes => simp [filled]

theorem Segment.outlineOf_eq_none_iff (ss : List Segment) :
    outlineOf ss = none ↔ ∃ leaf ∈ leavesOf ss, leaf.outline = none := by
  cases ss with
  | nil => simp [outlineOf, leavesOf]
  | cons s rest =>
    have here := Segment.outline_eq_none_iff s
    have later := Segment.outlineOf_eq_none_iff rest
    rw [outlineOf, leavesOf]
    simp only [List.mem_append, or_and_right, exists_or, ← here, ← later]
    cases s.outline with
    | none => simp
    | some i => cases outlineOf rest <;> simp

end

/-- Only a call on the last line keeps a tree from having an outline. -/
theorem RouteTree.outline_eq_none_iff (t : RouteTree) : t.outline = none ↔
    ∃ leaf ∈ t.leaves, ∃ c ∈ leaf.calls, c.locator.line = some lastLine := by
  rw [outline, Segment.outlineOf_eq_none_iff]
  simp only [Leaf.outline_eq_none_iff]
  rfl

theorem outline_opens {leaf : Leaf} {i j : Item} (made : leaf.outline = some i)
    (member : j ∈ i.preorder) : j.expandable = !j.children.isEmpty := by
  obtain ⟨-, -, own, flat, calls⟩ := Item.preorder_leaf made
  rw [flat] at member
  rcases List.mem_cons.mp member with rfl | member
  · exact own
  · exact ((Item.preorderOf_calls calls).2 j member).2

theorem mem_preorderOf {α : Type} {outline : α → Option Item} {xs : List α} {items : List Item}
    (made : xs.map outline = items.map some) {j : Item} (member : j ∈ Item.preorderOf items) :
    ∃ x ∈ xs, ∃ i, outline x = some i ∧ j ∈ i.preorder := by
  induction xs generalizing items with
  | nil =>
    obtain rfl : items = [] := by simpa using made
    cases member
  | cons x xs ih =>
    cases items with
    | nil => cases made
    | cons i items =>
      obtain ⟨first, others⟩ := List.cons.inj made
      rw [Item.preorderOf, List.mem_append] at member
      rcases member with here | later
      · exact ⟨x, List.mem_cons_self, i, first, here⟩
      · obtain ⟨y, hy, inside⟩ := ih others later
        exact ⟨y, List.mem_cons_of_mem x hy, inside⟩

theorem Segment.Grown.opens {s : Segment} (h : s.Grown) {i : Item} (made : s.outline = some i) :
    ∀ j ∈ i.preorder, j.expandable = !j.children.isEmpty := by
  induction h generalizing i with
  | @node label path methods segments filled _ ih =>
    obtain ⟨own, below, routes, nodes, rfl⟩ := outline_node_eq_some_iff.mp made
    rw [outlineOf_eq_mapM, mapM_eq_some_iff] at nodes
    intro j member
    rw [Item.preorder, Item.preorderOf_append] at member
    rcases List.mem_cons.mp member with rfl | member
    · have sizes := congrArg List.length routes
      have sizes' := congrArg List.length nodes
      simp only [List.length_map] at sizes sizes'
      have some : own ++ below ≠ [] := by
        intro none
        obtain ⟨rfl, rfl⟩ := List.append_eq_nil_iff.mp none
        rcases filled with filled | filled
        · exact filled (List.length_eq_zero_iff.mp sizes)
        · exact filled (List.length_eq_zero_iff.mp sizes')
      simpa [Item.expandable, Item.children] using some
    · rcases List.mem_append.mp member with member | member
      · obtain ⟨leaf, _, i, top, inside⟩ := mem_preorderOf routes member
        exact outline_opens top inside
      · obtain ⟨c, hc, i, top, inside⟩ := mem_preorderOf nodes member
        exact ih c hc top j inside

end RouteTags
