import RouteTags.Proofs.CrossReference.FirstWins
import RouteTags.Proofs.Tree.Representation

/-! A tree in shape is known by the routes at each of its nodes: labels give the paths, no node is
there without a route in it, and order leaves no choice. So the order in which declarations and
calls were found shows in a built tree only within one key. -/
namespace RouteTags

theorem methodsIn_of_mem {segments : List Segment} (ascending : Ascending segments) {s : Segment}
    (member : s ∈ segments) (labels : List String) :
    methodsIn segments s.label labels = s.methodsAt labels := by
  rw [methodsIn, labelled?_of_mem ascending member]
  rfl

theorem Segment.Grown.exists_methodsAt {s : Segment} (grown : s.Grown) (sorted : s.Sorted) :
    ∃ labels, s.methodsAt labels ≠ [] := by
  induction grown with
  | @node label path methods segments filled _ ih =>
    cases sorted with
    | node ascending below =>
      rcases filled with filled | filled
      · exact ⟨[], filled⟩
      · obtain ⟨c, member⟩ := List.exists_mem_of_ne_nil _ filled
        obtain ⟨labels, seen⟩ := ih c member (below c member)
        refine ⟨c.label :: labels, ?_⟩
        rw [← methodsIn_of_mem ascending member] at seen
        exact seen

theorem exists_twin {ss ts : List Segment} (sorted : AllSorted ss)
    (same : ∀ label labels, methodsIn ss label labels = methodsIn ts label labels) {s : Segment}
    (member : s ∈ ss) (grown : s.Grown) :
    ∃ t ∈ ts, t.label = s.label ∧ ∀ labels, t.methodsAt labels = s.methodsAt labels := by
  obtain ⟨labels, seen⟩ := grown.exists_methodsAt (sorted.2 s member)
  have shown : ∀ labels, methodsIn ts s.label labels = s.methodsAt labels := fun labels =>
    (same s.label labels).symm.trans (methodsIn_of_mem sorted.1 member labels)
  cases search : labelled? ts s.label with
  | none =>
    rw [← shown, methodsIn, search] at seen
    exact absurd rfl seen
  | some t =>
    refine ⟨t, List.mem_of_find?_eq_some search, by simpa using List.find?_some search, ?_⟩
    intro labels
    rw [← shown, methodsIn, search]
    rfl

theorem eq_of_methodsIn {ss ts : List Segment} (sortedS : AllSorted ss) (sortedT : AllSorted ts)
    (grownS : ∀ s ∈ ss, s.Grown) (grownT : ∀ t ∈ ts, t.Grown)
    (one : ∀ s ∈ ss, ∀ t ∈ ts, s.label = t.label →
      (∀ labels, s.methodsAt labels = t.methodsAt labels) → s = t)
    (same : ∀ label labels, methodsIn ss label labels = methodsIn ts label labels) : ss = ts := by
  apply eq_of_ascending sortedS.1 sortedT.1
  intro s
  constructor
  · intro member
    obtain ⟨t, twin, named, shown⟩ := exists_twin sortedS same member (grownS s member)
    have eq := one s member t twin named.symm fun labels => (shown labels).symm
    exact eq ▸ twin
  · intro member
    obtain ⟨t, twin, named, shown⟩ := exists_twin sortedT (fun label labels => (same label labels).symm)
      member (grownT s member)
    have eq := one t twin s member named shown
    exact eq ▸ twin

theorem Segment.Shaped.eq_of_methodsAt {above : List String} {s t : Segment}
    (shapedS : s.Shaped above) (shapedT : t.Shaped above) (grownS : s.Grown) (grownT : t.Grown)
    (named : s.label = t.label) (same : ∀ labels, s.methodsAt labels = t.methodsAt labels) :
    s = t := by
  induction shapedS generalizing t with
  | @node above label methods segments own listed ascending below ih =>
    have sortedS := (Segment.Shaped.node own listed ascending below).sorted
    have sortedT := shapedT.sorted
    cases shapedT with
    | @node _ label' methods' segments' own' listed' ascending' below' =>
      obtain rfl : label = label' := named
      have routes : methods = methods' := same []
      have nodes : segments = segments' := by
        apply eq_of_methodsIn ⟨ascending, fun c hc => (below c hc).sorted⟩
          ⟨ascending', fun c hc => (below' c hc).sorted⟩ (fun c => grownS.child)
          (fun c => grownT.child)
        · intro c hc d hd namedHere sameHere
          exact ih c hc (below' d hd) (grownS.child hc) (grownT.child hd) namedHere sameHere
        · exact fun label labels => same (label :: labels)
      rw [routes, nodes]

theorem Segment.AtSlash.eq_of_methodsAt {s t : Segment} (slashS : s.AtSlash) (slashT : t.AtSlash)
    (same : ∀ labels, s.methodsAt labels = t.methodsAt labels) : s = t := by
  obtain ⟨label, path, _, alone⟩ := slashS
  obtain ⟨label', path', _, alone'⟩ := slashT
  have routes := same []
  cases s
  cases t
  cases label
  cases path
  cases alone
  cases label'
  cases path'
  cases alone'
  cases routes
  rfl

namespace RouteTree

theorem Shaped.eq_of_methodsAt {t u : RouteTree} (shapedT : t.Shaped) (shapedU : u.Shaped)
    (same : ∀ labels, t.methodsAt labels = u.methodsAt labels) : t = u := by
  have roots : t.roots = u.roots := by
    apply eq_of_methodsIn shapedT.sorted shapedU.sorted shapedT.grown shapedU.grown
    · intro r hr s hs named sameHere
      rcases shapedT.roots r hr with slash | shaped <;>
        rcases shapedU.roots s hs with slash' | shaped'
      · exact slash.eq_of_methodsAt slash' sameHere
      · exact absurd (named.symm.trans slash.label) shaped'.pathLabel.ne_rootLabel
      · exact absurd (named.trans slash'.label) shaped.pathLabel.ne_rootLabel
      · exact shaped.eq_of_methodsAt shaped' (shapedT.grown r hr) (shapedU.grown s hs) named sameHere
    · exact fun label labels => same (label :: labels)
  cases t
  cases u
  exact congrArg RouteTree.mk roots

theorem build_methodsAt_ascending (backend : List Declaration) (frontend : List Call)
    (index : CrossReference) (labels : List String) :
    ((build backend frontend index).methodsAt labels).Pairwise fun a b =>
      a.key.order b.key = .lt := by
  have shaped := build_shaped backend frontend index
  rw [methodsAt_eq_find?]
  cases found : (build backend frontend index).find? labels with
  | none => exact .nil
  | some s =>
    exact shaped.methods_ascending (leafKeys_nodup backend frontend index) (stands_of_find? found)

theorem build_eq_of_leaves {backend backend' : List Declaration} {frontend frontend' : List Call}
    {index index' : CrossReference}
    (same : ∀ leaf, leaf ∈ (firstOfKey [] backend).map (leafOf index frontend) ↔
      leaf ∈ (firstOfKey [] backend').map (leafOf index' frontend')) :
    build backend frontend index = build backend' frontend' index' := by
  apply (build_shaped backend frontend index).eq_of_methodsAt (build_shaped backend' frontend' index')
  intro labels
  apply eq_of_ascending (build_methodsAt_ascending backend frontend index labels)
    (build_methodsAt_ascending backend' frontend' index' labels)
  intro leaf
  rw [(build_spec backend frontend index).2, (build_spec backend' frontend' index').2, same]

end RouteTree

/-- The same mentions, perhaps in another order, but those of each key in the same order. -/
def Reordered {kind : TagKind} (ms ns : List (Mention kind)) : Prop :=
  ∀ key, ms.filter (fun m => m.key == key) = ns.filter (fun m => m.key == key)

theorem Reordered.swap {kind : TagKind} (before after : List (Mention kind)) {m n : Mention kind}
    (apart : m.key ≠ n.key) : Reordered (before ++ m :: n :: after) (before ++ n :: m :: after) := by
  intro key
  rw [List.filter_append, List.filter_append]
  by_cases first : m.key = key
  · have other : ¬ n.key = key := fun second => apart (first.trans second.symm)
    simp [first, other]
  · simp [first, List.filter_cons]

theorem Reordered.find?_key {declarations declarations' : List Declaration}
    (h : Reordered declarations declarations') (key : RouteKey) :
    declarations.find? (fun d => d.key == key) = declarations'.find? fun d => d.key == key := by
  rw [← List.head?_filter, ← List.head?_filter, h key]

namespace RouteTree

theorem mem_leaves_of_reordered {backend backend' : List Declaration}
    {frontend frontend' : List Call} (declared : Reordered backend backend')
    (called : Reordered frontend frontend') {leaf : Leaf}
    (member : leaf ∈ (firstOfKey [] backend).map (leafOf (.ofList backend) frontend)) :
    leaf ∈ (firstOfKey [] backend').map (leafOf (.ofList backend') frontend') := by
  obtain ⟨d, first, rfl⟩ := List.mem_map.mp member
  obtain ⟨unseen, found⟩ := mem_firstOfKey_iff.mp first
  have found' := (declared.find?_key d.key).symm.trans found
  refine List.mem_map.mpr ⟨d, mem_firstOfKey_iff.mpr ⟨unseen, found'⟩, ?_⟩
  simp only [leafOf, CrossReference.find?_ofList, found, found', called d.key]

/-- Declarations and calls in another order give the same tree, and the same outline, as long as
those of one key keep their order. -/
theorem build_reordered {backend backend' : List Declaration} {frontend frontend' : List Call}
    (declared : Reordered backend backend') (called : Reordered frontend frontend') :
    build backend' frontend' (.ofList backend') = build backend frontend (.ofList backend) ∧
    (build backend' frontend' (.ofList backend')).outline =
      (build backend frontend (.ofList backend)).outline := by
  have same : build backend' frontend' (.ofList backend') =
      build backend frontend (.ofList backend) := by
    apply build_eq_of_leaves
    intro leaf
    exact ⟨mem_leaves_of_reordered (fun key => (declared key).symm) fun key => (called key).symm,
      mem_leaves_of_reordered declared called⟩
  exact ⟨same, congrArg RouteTree.outline same⟩

theorem build_reordered_users :
    let get : RouteKey := ⟨"GET", "/users"⟩
    let post : RouteKey := ⟨"POST", "/users"⟩
    let file : Path := ⟨"/ws/users.ts"⟩
    let other : Path := ⟨"/ws/admin.ts"⟩
    let backend : List Declaration := [.onLine get file 1, .onLine post file 4, .onLine get other 7]
    let backend' : List Declaration := [.onLine post file 4, .onLine get file 1, .onLine get other 7]
    let frontend : List Call := [.onLine get other 2, .onLine get other 3, .onLine post other 9]
    let frontend' : List Call := [.onLine get other 2, .onLine post other 9, .onLine get other 3]
    Reordered backend backend' ∧ Reordered frontend frontend' ∧
    build backend' frontend' (.ofList backend') = build backend frontend (.ofList backend) ∧
    (build backend' frontend' (.ofList backend')).outline =
      (build backend frontend (.ofList backend)).outline := by
  intro get post file other backend backend' frontend frontend'
  have declared : Reordered backend backend' := .swap [] [.onLine get other 7] (by decide)
  have called : Reordered frontend frontend' := .swap [.onLine get other 2] [] (by decide)
  exact ⟨declared, called, build_reordered declared called⟩

end RouteTree

end RouteTags
