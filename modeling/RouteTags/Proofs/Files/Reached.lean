import RouteTags.Proofs.Files.Absolute
import RouteTags.Proofs.Files.Joined

namespace RouteTags

namespace Path

theorem isAbsolute_iff (p : Path) : p.isAbsolute = true ↔ Component.root ∈ p.components := by
  have chars : p = ofChars p.text.toList := by rw [ofChars, String.ofList_toList]
  rw [chars, root_mem_components_iff, ← chars, isAbsolute, beq_iff_eq]

theorem below?_join {base : Path} {names : List String} (content : base.components ≠ [])
    (proper : ∀ name ∈ names, ProperName name) (some : names ≠ []) :
    (base.join (.ofNames names)).below? base = Option.some (.ofNames names) := by
  obtain ⟨stem, ends, joined⟩ := exists_stem base
  have pieces := (joined names proper some).1
  rw [← List.append_nil (names.map pieceOf)] at pieces
  refine below?_of_pieces content ?_ (by simp) pieces
  rw [components]
  rcases ends with ⟨same, -⟩ | more
  · rw [same]
  · rw [more, List.filterMap_append]
    simp

theorem below?_self {base : Path} (content : base.components ≠ []) :
    base.below? base = some (.ofNames []) :=
  below?_of_pieces content rfl (by simp) (List.append_nil _).symm

theorem join_pathOf {base names : Location} (properBase : ∀ name ∈ base, ProperName name)
    (proper : ∀ name ∈ names, ProperName name) (content : names ≠ []) :
    (FileTree.pathOf base).join (.ofNames names) = FileTree.pathOf (base ++ names) := by
  have text : ∀ l, FileTree.pathOf l = ofChars ('/' :: (String.intercalate "/" l).toList) := by
    intro l
    rw [FileTree.pathOf, ofChars]
    congr 1
    apply String.toList_injective
    simp
  by_cases top : base = []
  · have slash : FileTree.pathOf [] = ofChars ([] ++ ['/']) := rfl
    rw [top, slash, join_slash proper content, List.nil_append, List.nil_append, text]
  · have solid : ('/' :: (String.intercalate "/" base).toList).getLast? ≠ some '/' := by
      obtain ⟨before, last, inside, nonempty, slashless⟩ :=
        exists_last (fun name h => .of_proper (properBase name h)) top
      rw [inside, ← List.cons_append, List.getLast?_append_of_ne_nil _ nonempty]
      exact fun slash => slashless (List.mem_of_getLast? slash)
    rw [text, join_solid proper content (List.cons_ne_nil _ _) solid, text,
      Text.toList_intercalate_append top content, List.cons_append]

end Path

namespace FileTree

variable {t : FileTree} {cwd base l m : Location} {p q root : Path} {names : List String}
  {bytes : ByteArray}

def Holds (t : FileTree) (cwd : Location) (file : Path × ByteArray) : Prop :=
  ∃ l, t.locate cwd file.1 = .ok l ∧ (l, file.2) ∈ t.files

theorem locate_unique (same : p.components = q.components) (one : t.locate cwd p = .ok l)
    (two : t.locate cwd q = .ok m) : l = m := by
  obtain ⟨steps, components, own, -⟩ := exists_steps p
  obtain ⟨others, components', own', -⟩ := exists_steps q
  have start : startOf cwd p = startOf cwd q := by
    have absolute : p.isAbsolute = q.isAbsolute := by
      rw [Bool.eq_iff_iff, Path.isAbsolute_iff, Path.isAbsolute_iff, same]
    rw [startOf, absolute, startOf]
  -- Steps on the spot are left out of the components, and lead nowhere else.
  have first := leads_filter (own t cwd l one)
  have second := leads_filter (own' t cwd m two)
  rw [← filter_components, components, same] at first
  rw [← filter_components, components', ← start] at second
  exact eq_of_leads first second

theorem Holds.unique {file other : Path × ByteArray} (one : t.Holds cwd file)
    (two : t.Holds cwd other) (same : file.1.components = other.1.components) :
    file.2 = other.2 := by
  obtain ⟨l, leads, there⟩ := one
  obtain ⟨m, leads', there'⟩ := two
  obtain rfl := locate_unique same leads leads'
  exact bytes_unique there there'

theorem locate_reached (wellFormed : t.WellFormed) (leads : t.locate cwd root = .ok base)
    (there : (base ++ names, bytes) ∈ t.files) :
    t.locate cwd (Discovery.pathFrom root base (base ++ names)) = .ok (base ++ names) := by
  obtain ⟨steps, -, own, joined⟩ := exists_steps root
  rw [Discovery.pathFrom, below?_append]
  cases names with
  | nil => simpa using leads
  | cons name names =>
    have proper := wellFormed.proper_below there
    obtain ⟨n, placed⟩ := Option.isSome_iff_exists.mp (get?_of_mem_files there)
    exact (joined (name :: names) proper (List.cons_ne_nil _ _) t cwd _).mpr
      (leads_append_iff.mpr ⟨base, own t cwd base leads, leads_names wellFormed placed⟩)

theorem resolve_eq_of_leads {folder : Path}
    (leads : t.locate cwd (t.resolve cwd folder) = .ok base) :
    (∃ l n, t.get? l = some n ∧ t.resolve cwd folder = pathOf l) ∨
      folder.text.isEmpty = false ∧ t.resolve cwd folder = absolute cwd folder := by
  unfold resolve at leads ⊢
  cases found : t.lookup cwd folder with
  | ok there => exact .inl ⟨there.1, there.2, (lookup_eq_ok_iff.mp found).2, rfl⟩
  | error e =>
    rw [found] at leads
    refine .inr ⟨?_, rfl⟩
    by_contra empty
    obtain rfl : folder = ⟨""⟩ := by
      cases folder
      simpa using empty
    cases leads

theorem components_resolve {folder : Path} (leads : t.locate cwd (t.resolve cwd folder) = .ok base) :
    (t.resolve cwd folder).components ≠ [] := by
  have rooted : (t.resolve cwd folder).isAbsolute = true := by
    rcases resolve_eq_of_leads leads with ⟨l, n, -, direct⟩ | ⟨content, made⟩
    · rw [direct]
      simp [Path.isAbsolute, pathOf]
    · rw [made, isAbsolute_absolute content]
  exact List.ne_nil_of_mem ((Path.isAbsolute_iff _).mp rooted)

theorem tight_pathOf (proper : ∀ name ∈ l, ProperName name) : (pathOf l).Tight l :=
  ⟨fun name h => .of_proper (proper name h), 0, [], .inl rfl, by simp [pathOf]⟩

theorem tight_absolute {p : Path} (content : p.text.isEmpty = false)
    (proper : ∀ name ∈ cwd, ProperName name) : ∃ names, (absolute cwd p).Tight names := by
  obtain ⟨slash, ending, whole⟩ : ∃ slash, (slash = "" ∨ slash = "/") ∧ absolute cwd p = _ :=
    absolute_eq content
  have front : ∀ s, ∃ n, (topOf s).toList = List.replicate (n + 1) '/' := by
    intro s
    unfold topOf
    split
    · exact ⟨0, rfl⟩
    · exact ⟨1, rfl⟩
    · exact ⟨0, rfl⟩
  obtain ⟨n, front⟩ := front p.text.toList
  have solid : ∀ name ∈ (if p.isAbsolute then [] else cwd) ++ namesOf (stepsOf p.text.toList),
      Path.Solid name := by
    intro name member
    rcases List.mem_append.mp member with member | member
    · split at member
      · cases member
      · exact .of_proper (proper name member)
    · exact solid_namesOf member
  have text := congrArg (·.text.toList) whole
  simp only [String.toList_append, front, List.append_assoc] at text
  refine ⟨_, solid, n, slash.toList, ?_, text⟩
  rcases ending with rfl | rfl
  · exact .inl rfl
  · exact .inr rfl

/-- A folder that leads somewhere has at most one slash between two names of its resolved form. -/
theorem tight_resolve (wellFormed : t.WellFormed) (proper : ∀ name ∈ cwd, ProperName name)
    {folder : Path} (leads : t.locate cwd (t.resolve cwd folder) = .ok base) :
    ∃ names, (t.resolve cwd folder).Tight names := by
  rcases resolve_eq_of_leads leads with ⟨l, n, there, direct⟩ | ⟨content, made⟩
  · rw [direct]
    exact ⟨l, tight_pathOf (wellFormed.proper there)⟩
  · rw [made]
    exact tight_absolute content proper

end FileTree

namespace Discovery

variable {t : FileTree} {cwd base : Location} {root folder : Path} {names : List String}
  {bytes : ByteArray}

theorem components_pathFrom (proper : ∀ name ∈ names, ProperName name) :
    (pathFrom root base (base ++ names)).components = root.components ++ names.map .name := by
  rw [pathFrom, FileTree.below?_append]
  cases names with
  | nil => simp
  | cons name names => exact Path.components_join root proper (List.cons_ne_nil name names)

theorem below?_pathFrom (content : root.components ≠ [])
    (proper : ∀ name ∈ names, ProperName name) :
    (pathFrom root base (base ++ names)).below? root = some (.ofNames names) := by
  rw [pathFrom, FileTree.below?_append]
  cases names with
  | nil => exact Path.below?_self content
  | cons name names => exact Path.below?_join content proper (List.cons_ne_nil name names)

theorem exists_tight_pathFrom {p : Path} {own : List String} (tight : p.Tight own)
    (proper : ∀ name ∈ names, ProperName name) :
    ∃ all, (pathFrom p base (base ++ names)).Tight all := by
  rw [pathFrom, FileTree.below?_append]
  cases names with
  | nil => exact ⟨_, tight⟩
  | cons name names => exact ⟨_, tight.join proper (List.cons_ne_nil name names)⟩

theorem same_pathFrom (wellFormed : t.WellFormed) (straight : t.Straight cwd folder)
    (leads : t.locate cwd (t.resolve cwd folder) = .ok base)
    (there : (base ++ names, bytes) ∈ t.files) :
    (pathFrom (t.resolve cwd folder) base (base ++ names)).components =
      (FileTree.pathOf (base ++ names)).components := by
  rw [components_pathFrom (wellFormed.proper_below there),
    Path.components_pathOf (wellFormed.proper_of_file there),
    straight base leads (wellFormed.isSome_front there), List.map_append, List.cons_append]

theorem pathFrom_of_pathExists (wellFormed : t.WellFormed)
    (present : t.pathExists cwd folder = true)
    (leads : t.locate cwd (t.resolve cwd folder) = .ok base)
    (there : (base ++ names, bytes) ∈ t.files) :
    pathFrom (t.resolve cwd folder) base (base ++ names) = FileTree.pathOf (base ++ names) := by
  have proper := wellFormed.proper_of_file there
  rw [FileTree.resolve_of_pathExists wellFormed present leads, pathFrom, FileTree.below?_append]
  cases names with
  | nil => rw [List.append_nil]
  | cons name names =>
    exact Path.join_pathOf (fun n h => proper n (List.mem_append_left _ h))
      (wellFormed.proper_below there) (List.cons_ne_nil name names)

end Discovery

end RouteTags
