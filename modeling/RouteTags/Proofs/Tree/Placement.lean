import RouteTags.Proofs.Tree.Nodes

namespace RouteTags

/-- The labels of the node where the route of an endpoint hangs. A route without segments hangs at
the node of `/`. -/
def homeOf (endpoint : String) : List String :=
  match labelsOf endpoint with
  | [] => [rootLabel]
  | label :: labels => label :: labels

namespace RouteTree

def methodsAt (t : RouteTree) : List String → List Leaf
  | [] => []
  | label :: labels => methodsIn t.roots label labels

theorem methodsAt_eq_foldlM (s : Segment) (labels : List String) :
    s.methodsAt labels = ((labels.foldlM Segment.child? s).map Segment.methods).getD [] := by
  induction labels generalizing s with
  | nil => rfl
  | cons label labels ih =>
    rw [Segment.methodsAt, List.foldlM_cons]
    cases s.child? label with
    | none => rfl
    | some c => exact ih c

theorem methodsAt_eq_find? (t : RouteTree) (labels : List String) :
    t.methodsAt labels = ((t.find? labels).map Segment.methods).getD [] := by
  cases labels with
  | nil => rfl
  | cons label labels =>
    have root : labelled? t.roots label = t.root? label := rfl
    simp only [methodsAt, methodsIn, find?, root, Bind.bindLeft, Option.bind_eq_bind]
    cases t.root? label with
    | none => rfl
    | some s => exact methodsAt_eq_foldlM s labels

theorem mem_methodsAt_iff {t : RouteTree} {labels : List String} {leaf : Leaf} :
    leaf ∈ t.methodsAt labels ↔ ∃ node, t.find? labels = some node ∧ leaf ∈ node.methods := by
  rw [methodsAt_eq_find?]
  cases t.find? labels <;> simp

structure Placed (leaf : Leaf) (t u : RouteTree) : Prop where
  sorted : AllSorted u.roots
  methodsAt : ∀ labels, u.methodsAt labels =
    if labels = homeOf leaf.key.endpoint then insertLeaf leaf (t.methodsAt labels)
    else t.methodsAt labels
  leaves : u.leaves.Perm (leaf :: t.leaves)

theorem placed_of_hungIn {leaf : Leaf} {t u : RouteTree} {next : String} {labels : List String}
    (hung : HungIn leaf next labels t.roots u.roots)
    (home : homeOf leaf.key.endpoint = next :: labels) : Placed leaf t u := by
  refine ⟨hung.sorted, ?_, hung.leaves⟩
  intro target
  rw [home]
  cases target with
  | nil => simp [methodsAt]
  | cons label target =>
    simp only [methodsAt, List.cons.injEq]
    exact hung.methodsIn label target

theorem place_placed (leaf : Leaf) {t : RouteTree} (sorted : AllSorted t.roots) :
    Placed leaf t (t.place leaf) := by
  have placed := fun labels next path =>
    alterSegment_hung (fun s => place_hung (s := s) leaf labels) (label_place leaf labels) next path
      sorted
  unfold place
  cases h : labelsOf leaf.key.endpoint with
  | nil => exact placed_of_hungIn (placed [] rootLabel rootLabel) (by rw [homeOf, h])
  | cons next labels => exact placed_of_hungIn (placed labels next _) (by rw [homeOf, h])

theorem foldl_place (routes : List Leaf) {t : RouteTree} (sorted : AllSorted t.roots) :
    AllSorted (routes.foldl place t).roots ∧
    (routes.foldl place t).leaves.Perm (routes ++ t.leaves) ∧
    ∀ leaf labels, leaf ∈ (routes.foldl place t).methodsAt labels ↔
      leaf ∈ t.methodsAt labels ∨ leaf ∈ routes ∧ labels = homeOf leaf.key.endpoint := by
  induction routes generalizing t with
  | nil =>
    simp only [List.foldl_nil, List.nil_append, List.not_mem_nil, false_and, or_false]
    exact ⟨sorted, .refl _, fun _ _ => trivial⟩
  | cons first routes ih =>
    have placed := place_placed first sorted
    obtain ⟨sorted', leaves, members⟩ := ih placed.sorted
    simp only [List.foldl_cons, List.cons_append]
    refine ⟨sorted', ?_, ?_⟩
    · exact (leaves.trans (placed.leaves.append_left routes)).trans List.perm_middle
    · intro leaf labels
      have here : leaf ∈ (t.place first).methodsAt labels ↔
          leaf ∈ t.methodsAt labels ∨ leaf = first ∧ labels = homeOf leaf.key.endpoint := by
        rw [placed.methodsAt]
        split
        · rename_i home
          rw [(insertLeaf_perm first _).mem_iff, List.mem_cons]
          constructor
          · rintro (rfl | old)
            · exact .inr ⟨rfl, home⟩
            · exact .inl old
          · rintro (old | ⟨new, _⟩)
            · exact .inr old
            · exact .inl new
        · rename_i elsewhere
          constructor
          · exact .inl
          · rintro (old | ⟨rfl, home⟩)
            · exact old
            · exact absurd home elsewhere
      rw [members, here, List.mem_cons, or_assoc, or_and_right]

theorem mem_firstOfKey_iff {seen : List RouteKey} {declarations : List Declaration}
    {d : Declaration} : d ∈ firstOfKey seen declarations ↔
      d.key ∉ seen ∧ declarations.find? (fun e => e.key == d.key) = some d := by
  induction declarations generalizing seen with
  | nil => simp [firstOfKey]
  | cons e rest ih =>
    unfold firstOfKey
    by_cases same : e.key = d.key
    · simp only [List.find?_cons, same, beq_self_eq_true, Option.some.injEq]
      split
      · rename_i known
        simp [ih, known]
      · rename_i fresh
        simp [ih, fresh, eq_comm]
    · have skip : (e.key == d.key) = false := by simpa using same
      have other : d ≠ e := fun h => same (h ▸ rfl)
      simp only [List.find?_cons, skip]
      split
      · exact ih
      · simp [ih, other, Ne.symm same]

theorem firstOfKey_keys_nodup (seen : List RouteKey) (declarations : List Declaration) :
    ((firstOfKey seen declarations).map Mention.key).Nodup := by
  induction declarations generalizing seen with
  | nil => exact .nil
  | cons e rest ih =>
    unfold firstOfKey
    split
    · exact ih seen
    · refine List.nodup_cons.mpr ⟨?_, ih _⟩
      intro again
      obtain ⟨d, hd, same⟩ := List.mem_map.mp again
      exact (mem_firstOfKey_iff.mp hd).1 (same ▸ List.mem_cons_self)

theorem mem_firstOfKey_keys_iff {declarations : List Declaration} {key : RouteKey} :
    key ∈ (firstOfKey [] declarations).map Mention.key ↔ key ∈ declarations.map Mention.key := by
  constructor
  · intro h
    obtain ⟨d, hd, rfl⟩ := List.mem_map.mp h
    exact List.mem_map_of_mem (List.mem_of_find?_eq_some (mem_firstOfKey_iff.mp hd).2)
  · intro h
    obtain ⟨d, hd, rfl⟩ := List.mem_map.mp h
    cases first : declarations.find? (fun e => e.key == d.key) with
    | none => simpa using List.find?_eq_none.mp first d hd
    | some e =>
      have same : e.key = d.key := by simpa using List.find?_some first
      refine List.mem_map.mpr ⟨e, mem_firstOfKey_iff.mpr ⟨List.not_mem_nil, ?_⟩, same⟩
      rw [same]
      exact first

theorem build_spec (backend : List Declaration) (frontend : List Call) (index : CrossReference) :
    let leaves := (firstOfKey [] backend).map (leafOf index frontend)
    (build backend frontend index).leaves.Perm leaves ∧
    ∀ leaf labels, leaf ∈ (build backend frontend index).methodsAt labels ↔
      leaf ∈ leaves ∧ labels = homeOf leaf.key.endpoint := by
  intro leaves
  obtain ⟨_, perm, members⟩ := foldl_place leaves (t := empty) ⟨.nil, by simp [empty]⟩
  have none : ∀ leaf labels, leaf ∉ empty.methodsAt labels := by
    intro leaf labels
    cases labels <;> simp [methodsAt, methodsIn, labelled?, empty]
  have start : empty.leaves = [] := rfl
  rw [start, List.append_nil] at perm
  rw [build_eq_foldl_place]
  refine ⟨perm, ?_⟩
  intro leaf labels
  rw [members, or_iff_right (none leaf labels)]

theorem leafKeys_nodup (backend : List Declaration) (frontend : List Call)
    (index : CrossReference) : ((build backend frontend index).leaves.map Leaf.key).Nodup := by
  have keys := (build_spec backend frontend index).1.map Leaf.key
  rw [List.map_map] at keys
  exact keys.nodup_iff.mpr (firstOfKey_keys_nodup [] backend)

/-- Each declared key has one leaf and no other key has any. A leaf carries the declaration that
the cross-reference gives, or else the first one of its key, and exactly the calls of its key. It
is among the routes of the node of its labels and of no other node, and a call of an undeclared
key is nowhere. -/
theorem build_content (backend : List Declaration) (frontend : List Call)
    (index : CrossReference) :
    ((build backend frontend index).leaves.map Leaf.key).Nodup ∧
    (∀ key, key ∈ (build backend frontend index).leaves.map Leaf.key ↔
      key ∈ backend.map Mention.key) ∧
    (∀ leaf ∈ (build backend frontend index).leaves,
      (index.find? leaf.key <|> backend.find? fun d => d.key == leaf.key) =
        some leaf.declaration ∧
      leaf.calls = frontend.filter fun call => call.key == leaf.key) ∧
    (∀ leaf labels,
      (∃ node, (build backend frontend index).find? labels = some node ∧ leaf ∈ node.methods) ↔
        leaf ∈ (build backend frontend index).leaves ∧ labels = homeOf leaf.key.endpoint) ∧
    (∀ call : Call, call.key ∉ backend.map Mention.key →
      ∀ leaf ∈ (build backend frontend index).leaves, call ∉ leaf.calls) := by
  obtain ⟨perm, members⟩ := build_spec backend frontend index
  have keys : ((firstOfKey [] backend).map (leafOf index frontend)).map Leaf.key =
      (firstOfKey [] backend).map Mention.key := by
    rw [List.map_map]
    rfl
  have declared : ∀ key, key ∈ (build backend frontend index).leaves.map Leaf.key ↔
      key ∈ backend.map Mention.key := by
    intro key
    rw [(perm.map Leaf.key).mem_iff, keys, mem_firstOfKey_keys_iff]
  have carried : ∀ leaf ∈ (build backend frontend index).leaves,
      (index.find? leaf.key <|> backend.find? fun d => d.key == leaf.key) =
        some leaf.declaration ∧
      leaf.calls = frontend.filter fun call => call.key == leaf.key := by
    intro leaf hleaf
    obtain ⟨d, hd, rfl⟩ := List.mem_map.mp (perm.mem_iff.mp hleaf)
    refine ⟨?_, rfl⟩
    simp only [leafOf]
    rw [(mem_firstOfKey_iff.mp hd).2]
    cases index.find? d.key <;> rfl
  refine ⟨?_, declared, carried, ?_, ?_⟩
  · rw [(perm.map Leaf.key).nodup_iff, keys]
    exact firstOfKey_keys_nodup [] backend
  · intro leaf labels
    rw [← mem_methodsAt_iff, members, perm.mem_iff]
  · intro call undeclared leaf hleaf member
    rw [(carried leaf hleaf).2] at member
    have same : call.key = leaf.key := by simpa using (List.mem_filter.mp member).2
    rw [same] at undeclared
    exact undeclared ((declared leaf.key).mp (List.mem_map_of_mem hleaf))

end RouteTree

end RouteTags
