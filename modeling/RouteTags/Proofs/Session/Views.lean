import RouteTags.Command.Run
import RouteTags.Proofs.CrossReference.FirstWins
import RouteTags.Proofs.Tree.Placement

namespace RouteTags

theorem RouteTree.mem_leaves_iff {backend : List Declaration} {frontend : List Call}
    {index : CrossReference} {leaf : Leaf} :
    leaf ∈ (build backend frontend index).leaves ↔
      ∃ d, backend.find? (fun e => e.key == d.key) = some d ∧ leaf = leafOf index frontend d := by
  rw [(build_spec backend frontend index).1.mem_iff, List.mem_map]
  constructor
  · rintro ⟨d, first, rfl⟩
    exact ⟨d, (mem_firstOfKey_iff.mp first).2, rfl⟩
  · rintro ⟨d, first, rfl⟩
    exact ⟨d, mem_firstOfKey_iff.mpr ⟨List.not_mem_nil, first⟩, rfl⟩

theorem RouteTree.mem_leafKeys_iff (backend : List Declaration) (frontend : List Call)
    (index : CrossReference) {key : RouteKey} :
    key ∈ (build backend frontend index).leaves.map Leaf.key ↔ key ∈ backend.map Mention.key := by
  have keys := (build_spec backend frontend index).1.map Leaf.key
  rw [List.map_map] at keys
  exact keys.mem_iff.trans mem_firstOfKey_keys_iff

theorem RouteTree.leaf_of_resolved {backend : List Declaration} (frontend : List Call)
    {key : RouteKey} {d : Declaration}
    (found : (CrossReference.ofList backend).find? key = some d) :
    ⟨key, d, frontend.filter fun call => call.key == key⟩ ∈
      (build backend frontend (.ofList backend)).leaves := by
  have first := CrossReference.find?_ofList backend key ▸ found
  have own : d.key = key := by simpa using List.find?_some first
  subst own
  refine mem_leaves_iff.mpr ⟨d, first, ?_⟩
  rw [leafOf, found]
  rfl

theorem calls_of_mem_leaves {backend : List Declaration} {frontend : List Call}
    {index : CrossReference} {leaf : Leaf}
    (member : leaf ∈ (RouteTree.build backend frontend index).leaves) :
    leaf.calls = frontend.filter fun call => call.key == leaf.key := by
  obtain ⟨d, _, rfl⟩ := RouteTree.mem_leaves_iff.mp member
  rfl

theorem filter_key_eq_singleton {leaves : List Leaf} (distinct : (leaves.map Leaf.key).Nodup)
    {leaf : Leaf} (member : leaf ∈ leaves) :
    leaves.filter (fun other => other.key == leaf.key) = [leaf] := by
  have once : (leaves.filter fun other => other.key == leaf.key).length = 1 := by
    have count := List.count_eq_one_of_mem distinct (List.mem_map_of_mem member)
    rw [List.count_eq_countP, List.countP_map] at count
    rw [← List.countP_eq_length_filter]
    exact count
  obtain ⟨only, whole⟩ := List.length_eq_one_iff.mp once
  have inside : leaf ∈ leaves.filter fun other => other.key == leaf.key :=
    List.mem_filter.mpr ⟨member, BEq.rfl⟩
  rw [whole, List.mem_singleton] at inside
  rw [whole, inside]

theorem flatMap_filter_perm {keys : List RouteKey} (distinct : keys.Nodup) (calls : List Call) :
    (keys.flatMap fun key => calls.filter fun call => call.key == key).Perm
      (calls.filter fun call => call.key ∈ keys) := by
  induction keys with
  | nil => simp
  | cons key keys ih =>
    obtain ⟨absent, distinct⟩ := List.nodup_cons.mp distinct
    -- The calls with one of all these keys are cut in two by the first key.
    have own : (calls.filter fun call => call.key ∈ key :: keys).filter (·.key == key) =
        calls.filter fun call => call.key == key := by
      rw [List.filter_filter]
      refine List.filter_congr fun call _ => ?_
      by_cases same : call.key = key <;> simp [same]
    have others : (calls.filter fun call => call.key ∈ key :: keys).filter (!·.key == key) =
        calls.filter fun call => call.key ∈ keys := by
      rw [List.filter_filter]
      refine List.filter_congr fun call _ => ?_
      by_cases same : call.key = key <;> simp [same, absent]
    have whole := List.filter_append_perm (fun call => call.key == key)
      (calls.filter fun call => call.key ∈ key :: keys)
    rw [own, others] at whole
    rw [List.flatMap_cons]
    exact ((ih distinct).append_left _).trans whole

theorem leafCalls_perm (backend : List Declaration) (frontend : List Call)
    (index : CrossReference) :
    ((RouteTree.build backend frontend index).leaves.flatMap Leaf.calls).Perm
      (frontend.filter fun call => call.key ∈ backend.map Mention.key) := by
  have byKey : (RouteTree.build backend frontend index).leaves.flatMap Leaf.calls =
      ((RouteTree.build backend frontend index).leaves.map Leaf.key).flatMap fun key =>
        frontend.filter fun call => call.key == key := by
    rw [List.flatMap_map]
    exact List.flatMap_congr fun leaf member => calls_of_mem_leaves member
  have declared : (frontend.filter fun call =>
      call.key ∈ (RouteTree.build backend frontend index).leaves.map Leaf.key) =
      frontend.filter fun call => call.key ∈ backend.map Mention.key :=
    List.filter_congr fun call _ => by simp only [RouteTree.mem_leafKeys_iff]
  rw [byKey, ← declared]
  exact flatMap_filter_perm (RouteTree.leafKeys_nodup backend frontend index) frontend

theorem mem_unresolved_iff {index : CrossReference} {calls : List Call} {call : Call} :
    call ∈ index.unresolved calls ↔ call ∈ calls ∧ index.resolve call = none := by
  simp [CrossReference.unresolved]

theorem unresolved_ofList (backend : List Declaration) (calls : List Call) :
    (CrossReference.ofList backend).unresolved calls =
      calls.filter fun call => !decide (call.key ∈ backend.map Mention.key) := by
  refine List.filter_congr fun call _ => ?_
  rw [CrossReference.resolve, Bool.eq_iff_iff, Option.isNone_iff_eq_none,
    CrossReference.find?_ofList_eq_none_iff]
  simp

theorem unresolved_add_leafCalls (backend : List Declaration) (frontend : List Call) :
    ((CrossReference.ofList backend).unresolved frontend).length +
      ((RouteTree.build backend frontend (.ofList backend)).leaves.flatMap Leaf.calls).length =
      frontend.length := by
  have parts := List.filter_append_perm
    (fun call : Call => decide (call.key ∈ backend.map Mention.key)) frontend
  rw [unresolved_ofList, (leafCalls_perm backend frontend _).length_eq, Nat.add_comm,
    ← List.length_append]
  exact parts.length_eq

theorem size_eq_length_leaves (backend : List Declaration) (frontend : List Call) :
    (CrossReference.ofList backend).size =
      (RouteTree.build backend frontend (.ofList backend)).leaves.length := by
  have same : ((CrossReference.ofList backend).routes.map Mention.key).Perm
      ((RouteTree.build backend frontend (.ofList backend)).leaves.map Leaf.key) := by
    refine (List.perm_ext_iff_of_nodup (CrossReference.holds_ofList backend).distinct
      (RouteTree.leafKeys_nodup backend frontend _)).mpr ?_
    intro key
    rw [CrossReference.mem_routes_keys_iff, RouteTree.mem_leafKeys_iff]
  have lengths := same.length_eq
  rwa [List.length_map, List.length_map] at lengths

namespace Command

theorem callRows_all (scheme : Scheme) (index : CrossReference) (calls : List Call) :
    callRows scheme index false calls = calls.map fun call =>
      ⟨call.key, call.file, (call.locator.line.map fun l => l.toNat + 1).getD 0,
        (index.resolve call).map fun d => scheme.write d.locator⟩ := by
  rw [← List.filterMap_eq_map]
  rfl

theorem getElem?_callRows (scheme : Scheme) (index : CrossReference) (calls : List Call) (i : Nat) :
    ((callRows scheme index false calls)[i]?).map CallRow.target =
      calls[i]?.map fun call => (index.resolve call).map fun d => scheme.write d.locator := by
  rw [callRows_all, List.getElem?_map, Option.map_map]
  rfl

theorem length_callRows_unresolved (scheme : Scheme) (index : CrossReference) (calls : List Call) :
    (callRows scheme index true calls).length = (index.unresolved calls).length := by
  rw [callRows, List.length_filterMap_eq_countP, CrossReference.unresolved,
    ← List.countP_eq_length_filter]
  refine List.countP_congr fun call _ => ?_
  cases found : index.resolve call with
  | none => simp
  | some d => simp

end Command

theorem shown_of_unresolved {backend : List Declaration} {frontend : List Call} {call : Call}
    (nowhere : (CrossReference.ofList backend).resolve call = none) :
    ∀ leaf ∈ (RouteTree.build backend frontend (.ofList backend)).leaves, call ∉ leaf.calls := by
  intro leaf member held
  rw [calls_of_mem_leaves member] at held
  have own : call.key = leaf.key := by simpa using (List.mem_filter.mp held).2
  have undeclared := CrossReference.find?_ofList_eq_none_iff.mp nowhere
  rw [own, ← RouteTree.mem_leafKeys_iff backend frontend (.ofList backend)]
    at undeclared
  exact undeclared (List.mem_map_of_mem member)

theorem shown_of_resolved {backend : List Declaration} {frontend : List Call} {call : Call}
    {d : Declaration} (made : call ∈ frontend)
    (found : (CrossReference.ofList backend).resolve call = some d) :
    ∃ leaf, (RouteTree.build backend frontend (.ofList backend)).leaves.filter
      (fun leaf => call ∈ leaf.calls) = [leaf] ∧ leaf.declaration = d := by
  have member := RouteTree.leaf_of_resolved frontend found
  refine ⟨⟨call.key, d, frontend.filter fun other => other.key == call.key⟩, ?_, rfl⟩
  rw [← filter_key_eq_singleton (RouteTree.leafKeys_nodup backend frontend _) member]
  refine List.filter_congr fun leaf inside => ?_
  rw [calls_of_mem_leaves inside, Bool.eq_iff_iff]
  simp only [List.mem_filter, made, true_and, decide_eq_true_eq, beq_iff_eq]
  exact eq_comm

theorem call_shown (backend : List Declaration) {frontend : List Call} {call : Call}
    (made : call ∈ frontend) :
    (CrossReference.ofList backend).resolve call = none ∧
      (∀ leaf ∈ (RouteTree.build backend frontend (.ofList backend)).leaves, call ∉ leaf.calls) ∨
    ∃ leaf, (RouteTree.build backend frontend (.ofList backend)).leaves.filter
        (fun leaf => call ∈ leaf.calls) = [leaf] ∧
      (CrossReference.ofList backend).resolve call = some leaf.declaration := by
  cases found : (CrossReference.ofList backend).resolve call with
  | none => exact .inl ⟨rfl, shown_of_unresolved found⟩
  | some d =>
    obtain ⟨leaf, only, rfl⟩ := shown_of_resolved made found
    exact .inr ⟨leaf, only, rfl⟩

theorem resolve_eq_none_iff_shown_nowhere {backend : List Declaration} {frontend : List Call}
    {call : Call} (made : call ∈ frontend) :
    (CrossReference.ofList backend).resolve call = none ↔
      ∀ leaf ∈ (RouteTree.build backend frontend (.ofList backend)).leaves, call ∉ leaf.calls := by
  rcases call_shown backend made with ⟨nowhere, apart⟩ | ⟨leaf, only, found⟩
  · exact ⟨fun _ => apart, fun _ => nowhere⟩
  · have there := List.mem_singleton_self leaf
    rw [← only] at there
    obtain ⟨member, held⟩ := List.mem_filter.mp there
    constructor
    · intro nowhere
      rw [nowhere] at found
      cases found
    · intro apart
      exact absurd (of_decide_eq_true held) (apart leaf member)

theorem checkAt_eq_ok_iff {c : Checker} {t : FileTree} {cwd : Location} {root : Path}
    {config : Config} {s : Snapshot} :
    (∃ report, c.checkAt t cwd root config s = .ok report) ↔ c.fault? config = none := by
  unfold Checker.checkAt
  cases c.fault? config with
  | some fault => simp
  | none => cases t.locate cwd root <;> simp

theorem checkAt_lists {c : Checker} {t : FileTree} {cwd : Location} {root : Path}
    {config : Config} {s : Snapshot} {report : Report}
    (checked : c.checkAt t cwd root config s = .ok report) :
    report.unresolved = s.unresolved ∧ report.duplicates = s.index.duplicates := by
  unfold Checker.checkAt at checked
  split at checked
  · cases checked
  · split at checked
    · cases checked
      exact ⟨rfl, rfl⟩
    · cases checked
      exact ⟨rfl, rfl⟩

/-- All views of a published snapshot tell the same: every declaration is a route of the tree or a
duplicate in the report, and every call is unresolved in all of them or stands at exactly one leaf,
with the declaration that it leads to. -/
theorem publish_views_agree (s : Session) (folders : List Path) (scan : Scan) (c : Checker)
    (t : FileTree) (cwd : Location) (root : Path) (config : Config) :
    let session := s.publish folders scan
    let leaves := session.routeTree.1.leaves
    let rows := fun onlyUnresolved : Bool => Command.callRows session.scheme session.snapshot.index
      onlyUnresolved (session.snapshot.calls none)
    session.stats.routes = leaves.length ∧
    session.stats.unresolved = (rows true).length ∧
    session.stats.unresolved + (leaves.flatMap Leaf.calls).length = session.stats.calls ∧
    (∀ (i : Nat) (call : Call), session.snapshot.frontend[i]? = some call →
      (session.snapshot.index.resolve call = none ∧ (∀ leaf ∈ leaves, call ∉ leaf.calls) ∧
        (rows false)[i]?.map Command.CallRow.target = some none) ∨
      ∃ leaf, leaves.filter (fun leaf => call ∈ leaf.calls) = [leaf] ∧
        session.snapshot.index.resolve call = some leaf.declaration ∧
        (rows false)[i]?.map Command.CallRow.target =
          some (some (session.scheme.write leaf.declaration.locator))) ∧
    ((∃ report, c.checkAt t cwd root config session.snapshot = .ok report) ↔
      c.fault? config = none) ∧
    (∀ report, c.checkAt t cwd root config session.snapshot = .ok report →
      session.stats.endpoints = session.stats.routes + report.duplicates.length ∧
      session.stats.unresolved = report.unresolved.length ∧
      ∀ call ∈ session.snapshot.frontend,
        call ∈ report.unresolved ↔ ∀ leaf ∈ leaves, call ∉ leaf.calls) := by
  intro session leaves rows
  refine ⟨size_eq_length_leaves scan.backend scan.frontend, ?_,
    unresolved_add_leafCalls scan.backend scan.frontend, ?_, checkAt_eq_ok_iff, ?_⟩
  · exact (Command.length_callRows_unresolved session.scheme _ scan.frontend).symm
  · intro i call at_i
    have row := Command.getElem?_callRows session.scheme session.snapshot.index scan.frontend i
    have made : scan.frontend[i]? = some call := at_i
    rw [made, Option.map_some] at row
    rcases call_shown scan.backend (List.mem_of_getElem? made) with ⟨nowhere, apart⟩ | ⟨leaf, only, found⟩
    · refine .inl ⟨nowhere, apart, row.trans ?_⟩
      exact congrArg (fun r => some (Option.map _ r)) nowhere
    · refine .inr ⟨leaf, only, found, row.trans ?_⟩
      exact congrArg (fun r => some (Option.map _ r)) found
  · intro report checked
    obtain ⟨unresolved, duplicates⟩ := checkAt_lists checked
    refine ⟨?_, congrArg List.length unresolved.symm, ?_⟩
    · rw [duplicates]
      exact (CrossReference.size_add_duplicates scan.backend).symm
    · intro call made
      rw [unresolved]
      exact (mem_unresolved_iff.trans (and_iff_right made)).trans
        (resolve_eq_none_iff_shown_nowhere made)

end RouteTags
