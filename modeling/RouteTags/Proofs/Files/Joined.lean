import RouteTags.Proofs.Files.Writing
import RouteTags.Proofs.Path.Join
import RouteTags.Selection.Discovery

namespace RouteTags.FileTree

variable {t t' : FileTree} {cwd start base l : Location} {p : Path}

def startOf (cwd : Location) (p : Path) : Location := if p.isAbsolute then [] else cwd

theorem locate_eq_ok_iff : t.locate cwd p = .ok l ↔ p.text.isEmpty = false ∧
    (p.pieces.map (·.1)).foldlM t.follow (startOf cwd p) = .ok l := by
  unfold locate startOf
  cases p.text.isEmpty <;> simp

theorem exists_steps (p : Path) : ∃ steps : List (Option Component),
    steps.filterMap id = p.components ∧
    (∀ (t : FileTree) (cwd l : Location), t.locate cwd p = .ok l →
      steps.foldlM t.follow (startOf cwd p) = .ok l) ∧
    ∀ names : List String, (∀ name ∈ names, ProperName name) → names ≠ [] →
      ∀ (t : FileTree) (cwd l : Location), t.locate cwd (p.join (.ofNames names)) = .ok l ↔
        (steps ++ names.map fun name => some (Component.name name)).foldlM t.follow
          (startOf cwd p) = .ok l := by
  obtain ⟨stem, ends, joined⟩ := Path.exists_stem p
  refine ⟨stem.map (·.1), ?_, ?_, ?_⟩
  · rw [List.filterMap_map, Path.components]
    rcases ends with ⟨same, -⟩ | more
    · rw [same]
      rfl
    · rw [more, List.filterMap_append]
      simp
  · intro t cwd l leads
    obtain ⟨-, leads⟩ := locate_eq_ok_iff.mp leads
    rcases ends with ⟨same, -⟩ | more
    · rwa [same] at leads
    · rw [more, List.map_append, leads_append_iff] at leads
      obtain ⟨m, there, last⟩ := leads
      obtain ⟨-, same⟩ := leads_cons_iff.mp last
      cases same
      exact there
  · intro names proper content t cwd l
    obtain ⟨pieces, absolute⟩ := joined names proper content
    have filled : (p.join (.ofNames names)).text.isEmpty = false := by
      by_contra empty
      have none : p.join (.ofNames names) = ⟨""⟩ := by
        cases whole : p.join (.ofNames names)
        simpa [whole] using empty
      obtain ⟨front, last, rfl⟩ := (List.eq_nil_or_concat' names).resolve_left content
      have same := congrArg List.getLast? pieces
      rw [none, List.map_append, List.map_singleton, ← List.append_assoc, List.getLast?_concat] at same
      cases same
    have start : startOf cwd (p.join (.ofNames names)) = startOf cwd p := by
      rw [startOf, absolute, startOf]
    rw [locate_eq_ok_iff, start, pieces, List.map_append, List.map_map, and_iff_right filled]
    rfl

theorem WellFormed.folder_front (wellFormed : t.WellFormed) {names : List String} {n : Node}
    (there : t.get? (base ++ names) = some n) (content : names ≠ []) :
    t.get? base = some .folder :=
  wellFormed.parents _ (mem_entries_of_get? there (by simp [content])) base names rfl content

theorem leads_names (wellFormed : t.WellFormed) {names : List String} {n : Node}
    (there : t.get? (base ++ names) = some n) :
    (names.map fun name => some (Component.name name)).foldlM t.follow base = .ok (base ++ names) := by
  refine foldlM_follow_names ?_
  intro front rest split content
  rw [split, ← List.append_assoc] at there
  exact wellFormed.folder_front there content

theorem eq_of_leads_names {names : List String}
    (leads : (names.map fun name => some (Component.name name)).foldlM t.follow base = .ok l) :
    l = base ++ names := by
  induction names generalizing base with
  | nil =>
    cases leads
    simp
  | cons name names ih =>
    rw [ih (leads_cons_iff.mp leads).2]
    simp [destination]

theorem locate_pathFrom {folder : Path} {names : List String} {m : Location}
    (proper : ∀ name ∈ names, ProperName name) (reached : t.locate cwd folder = .ok base)
    (leads : t'.locate cwd (Discovery.pathFrom folder base (base ++ names)) = .ok m) :
    m = base ++ names := by
  obtain ⟨steps, -, own, joined⟩ := exists_steps folder
  rw [Discovery.pathFrom, below?_append] at leads
  cases names with
  | nil => simpa using eq_of_leads (own t' cwd m leads) (own t cwd base reached)
  | cons name names =>
    obtain ⟨b, before, behind⟩ := leads_append_iff.mp
      ((joined (name :: names) proper (List.cons_ne_nil _ _) t' cwd m).mp leads)
    rw [eq_of_leads_names behind, eq_of_leads before (own t cwd base reached)]

theorem filter_components (cs : List (Option Component)) :
    ((cs.filterMap id).map some).filter isStep = cs.filter isStep := by
  induction cs with
  | nil => rfl
  | cons c cs ih =>
    cases c with
    | none => simpa [isStep] using ih
    | some c =>
      have later : (some c :: cs).filterMap id = c :: cs.filterMap id := rfl
      rw [later, List.map_cons, List.filter_cons, List.filter_cons, ih]

/-- Every `..` among the components comes behind what is a folder. -/
def Climbs (t : FileTree) (start : Location) (cs : List Component) : Prop :=
  ∀ front back, cs = front ++ .up :: back →
    ∃ f, (front.map some).foldlM t.follow start = .ok f ∧ t.get? f = some .folder

/-- What leads to a folder that was there led to it before, if no `..` came behind what was not
there yet. -/
theorem leads_back (wellFormed : t.WellFormed) {steps : List (Option Component)}
    (climbs : t.Climbs start (steps.filterMap id)) (leads : steps.foldlM t'.follow start = .ok l)
    (folder : t.get? l = some .folder) : steps.foldlM t.follow start = .ok l := by
  induction steps using List.reverseRecOn generalizing l with
  | nil => exact leads
  | append_singleton steps c ih =>
    obtain ⟨m, before, last⟩ := leads_append_iff.mp leads
    obtain ⟨-, here⟩ := leads_cons_iff.mp last
    have shorter : t.Climbs start (steps.filterMap id) := by
      intro front back split
      refine climbs front (back ++ [c].filterMap id) ?_
      rw [List.filterMap_append, split, List.append_assoc, List.cons_append]
    -- It is enough to reach the folder from which the last step is taken.
    have enough : steps.foldlM t.follow start = .ok m → t.get? m = some .folder →
        (steps ++ [c]).foldlM t.follow start = .ok l := fun there inner =>
      leads_append_iff.mpr ⟨m, there, leads_cons_iff.mpr ⟨inner, here⟩⟩
    have direct : t.get? m = some .folder → (steps ++ [c]).foldlM t.follow start = .ok l :=
      fun inner => enough (ih shorter before inner) inner
    rw [← Except.ok.inj here] at folder
    -- A name lies in its folder; only `..` may come from what was not there.
    match c with
    | none => exact direct folder
    | some .root => exact direct folder
    | some .here => exact direct folder
    | some (.name s) => exact direct (wellFormed.folder_front folder (by simp))
    | some .up =>
      obtain ⟨f, there, inner⟩ := climbs (steps.filterMap id) [] (by simp)
      have reached := leads_filter there
      rw [filter_components] at reached
      have arrived := leads_of_filter reached inner
      obtain rfl := eq_of_leads arrived before
      exact enough arrived inner

theorem climbs_of_locate (leads : t.locate cwd p = .ok l) : t.Climbs (startOf cwd p) p.components := by
  obtain ⟨steps, components, own, -⟩ := exists_steps p
  rw [← components]
  intro front back split
  obtain ⟨before, rest, rfl, rfl, later⟩ := List.filterMap_eq_append_iff.mp split
  obtain ⟨quiet, c, after, rfl, none, up, -⟩ := List.filterMap_eq_cons_iff.mp later
  obtain rfl : c = some .up := up
  obtain ⟨m, reached, further⟩ := leads_append_iff.mp (own t cwd l leads)
  obtain ⟨k, silent, climb⟩ := leads_append_iff.mp further
  have folder := (leads_cons_iff.mp climb).1
  have whole : (before ++ quiet).foldlM t.follow (startOf cwd p) = .ok k :=
    leads_append_iff.mpr ⟨m, reached, silent⟩
  have same : before.filterMap id = (before ++ quiet).filterMap id := by
    rw [List.filterMap_append, List.filterMap_eq_nil_iff.mpr none, List.append_nil]
  refine ⟨k, leads_of_filter ?_ folder, folder⟩
  rw [same, filter_components]
  exact leads_filter whole

end RouteTags.FileTree
