import RouteTags.Proofs.Glob.Usable
import RouteTags.Proofs.Scan.Listing

namespace RouteTags

def Discovery.Usable (d : Discovery) : Prop :=
  d.excluded.Usable ∧ (Globs.ofTexts d.includes).Usable

theorem Discovery.fault?_eq_none_iff {d : Discovery} : d.fault? = none ↔ d.Usable := by
  rw [fault?, Usable, Option.orElse_eq_orElse, Option.orElse_eq_or, Option.or_eq_none_iff,
    Globs.fault?_eq_none_iff]
  exact and_congr_right fun _ => Globs.fault?_eq_none_iff

namespace Scanner

theorem fault?_eq_none_iff {s : Scanner} {folders : List Path} {c : Config} :
    s.fault? folders c = none ↔ folders = [] ∨ ∀ kind, (s.discovery (c.side kind)).Usable := by
  have kinds : (∀ kind, (s.discovery (c.side kind)).Usable) ↔
      (s.discovery c.backend).Usable ∧ (s.discovery c.frontend).Usable := by
    constructor
    · exact fun h => ⟨h .backend, h .frontend⟩
    · rintro ⟨backend, frontend⟩ kind
      cases kind with
      | backend => exact backend
      | frontend => exact frontend
  unfold fault?
  cases folders with
  | nil => simp
  | cons folder folders =>
    rw [kinds, ← Discovery.fault?_eq_none_iff, ← Discovery.fault?_eq_none_iff]
    simp [Option.orElse_eq_or]

theorem outcome_eq_ok_iff {s : Scanner} {t : FileTree} {cwd : Location} {folders : List Path}
    {c : Config} {scan : Scan} : s.outcome t cwd folders c = .ok scan ↔
      s.fault? folders c = none ∧ s.scan t cwd folders c = scan := by
  unfold outcome
  cases s.fault? folders c with
  | some fault => simp
  | none => simp

theorem fault?_everything (folders : List Path) : fault? {} folders .everything = none := by
  unfold fault?
  split
  · rfl
  · decide +kernel

theorem outcome_everything (t : FileTree) (cwd : Location) (folders : List Path) :
    outcome {} t cwd folders .everything = .ok (scan {} t cwd folders .everything) :=
  outcome_eq_ok_iff.mpr ⟨fault?_everything folders, rfl⟩

theorem mem_select_iff {d : Discovery} {t : FileTree} {root : Location}
    {file : Location × ByteArray} :
    file ∈ d.select t root ↔ file ∈ t.files ∧ (d.search t).finds root file.1 file.2 = true :=
  List.mem_filter

theorem exists_names_of_mem_select {d : Discovery} {t : FileTree} {root : Location}
    {file : Location × ByteArray} (selected : file ∈ d.select t root) :
    file ∈ t.files ∧ ∃ names, file.1 = root ++ names := by
  obtain ⟨there, found⟩ := mem_select_iff.mp selected
  refine ⟨there, ?_⟩
  unfold Discovery.Search.finds at found
  split at found
  · rename_i names below
    exact ⟨names, FileTree.below?_eq_some_iff.mp below⟩
  · cases found

theorem mem_reach_iff {d : Discovery} {t : FileTree} {root : Path} {base : Location}
    {file : Path × ByteArray} : file ∈ (d.search t).reach t root base ↔
      ∃ names, (base ++ names, file.2) ∈ d.select t base ∧
        file.1 = Discovery.pathFrom root base (base ++ names) := by
  constructor
  · intro member
    obtain ⟨⟨l, bytes⟩, selected, rfl⟩ := List.mem_map.mp member
    obtain ⟨-, names, rfl⟩ := exists_names_of_mem_select selected
    exact ⟨names, selected, rfl⟩
  · obtain ⟨p, bytes⟩ := file
    rintro ⟨names, selected, rfl⟩
    exact List.mem_map.mpr ⟨_, selected, rfl⟩

/-- A file that one side finds below one of the folders, by the path on which it is reached. -/
def Selects (s : Scanner) (t : FileTree) (cwd : Location) (folders : List Path) (side : Side)
    (file : Path × ByteArray) : Prop :=
  ∃ folder ∈ folders, ∃ base, t.locate cwd (t.resolve cwd folder) = .ok base ∧
    file ∈ ((s.discovery side).search t).reach t (t.resolve cwd folder) base

def finds (s : Scanner) (t : FileTree) (roots : List (Path × Location)) (c : Config) :
    List (TagKind × Path × ByteArray) :=
  roots.flatMap fun root =>
    (((s.discovery c.backend).search t).reach t root.1 root.2).map (TagKind.backend, ·) ++
      (((s.discovery c.frontend).search t).reach t root.1 root.2).map (TagKind.frontend, ·)

theorem selected_eq_ofFinds (s : Scanner) (t : FileTree) (roots : List (Path × Location))
    (c : Config) : s.selected t roots c = .ofFinds (s.finds t roots c) := by
  rw [Selection.ofFinds, finds, List.foldl_flatMap]
  simp only [List.foldl_append, List.foldl_map]
  rfl

variable {s : Scanner} {t : FileTree} {cwd : Location} {folders : List Path} {c : Config}

theorem mem_roots_iff {root : Path × Location} : root ∈ t.roots cwd folders ↔
    ∃ folder ∈ folders, t.resolve cwd folder = root.1 ∧ t.locate cwd root.1 = .ok root.2 := by
  have opened : ∀ (r : Except AccessError Location) base, r.toOption = some base ↔ r = .ok base := by
    intro r base
    cases r <;> simp [Except.toOption]
  obtain ⟨p, base⟩ := root
  simp only [FileTree.roots, List.mem_filterMap, Option.map_eq_some_iff, opened, Prod.mk.injEq]
  refine exists_congr fun folder => and_congr_right fun _ => ?_
  constructor
  · rintro ⟨_, leads, rfl, rfl⟩
    exact ⟨rfl, leads⟩
  · rintro ⟨rfl, leads⟩
    exact ⟨base, leads, rfl, rfl⟩

theorem mem_finds_iff {kind : TagKind} {file : Path × ByteArray} :
    (kind, file) ∈ s.finds t (t.roots cwd folders) c ↔
      s.Selects t cwd folders (c.side kind) file := by
  have sides : (kind, file) ∈ s.finds t (t.roots cwd folders) c ↔
      ∃ root ∈ t.roots cwd folders,
        file ∈ ((s.discovery (c.side kind)).search t).reach t root.1 root.2 := by
    simp only [finds, List.mem_flatMap, List.mem_append, List.mem_map]
    cases kind with
    | backend => simp [Config.side]
    | frontend => simp [Config.side]
  rw [sides]
  constructor
  · rintro ⟨⟨p, base⟩, member, found⟩
    obtain ⟨folder, listed, rfl, leads⟩ := mem_roots_iff.mp member
    exact ⟨folder, listed, base, leads, found⟩
  · rintro ⟨folder, listed, base, leads, found⟩
    exact ⟨(_, base), mem_roots_iff.mpr ⟨folder, listed, rfl, leads⟩, found⟩

theorem exists_of_selects {side : Side} {file : Path × ByteArray}
    (selected : s.Selects t cwd folders side file) :
    ∃ folder ∈ folders, ∃ base names, t.locate cwd (t.resolve cwd folder) = .ok base ∧
      (base ++ names, file.2) ∈ (s.discovery side).select t base ∧
      (base ++ names, file.2) ∈ t.files ∧
      file.1 = Discovery.pathFrom (t.resolve cwd folder) base (base ++ names) := by
  obtain ⟨folder, listed, base, leads, found⟩ := selected
  obtain ⟨names, selected, path⟩ := mem_reach_iff.mp found
  exact ⟨folder, listed, base, names, leads, selected, (mem_select_iff.mp selected).1, path⟩

theorem holds_of_selects (wellFormed : t.WellFormed) {side : Side} {file : Path × ByteArray}
    (selected : s.Selects t cwd folders side file) : t.Holds cwd file := by
  obtain ⟨folder, -, base, names, leads, -, there, path⟩ := exists_of_selects selected
  exact ⟨_, path ▸ FileTree.locate_reached wellFormed leads there, there⟩

theorem records_scan (wellFormed : t.WellFormed) (s : Scanner) (cwd : Location)
    (folders : List Path) (c : Config) :
    (s.selected t (t.roots cwd folders) c).Records t cwd fun kind =>
      s.Selects t cwd folders (c.side kind) := by
  have there : ∀ find ∈ s.finds t (t.roots cwd folders) c, t.Holds cwd find.2 :=
    fun _ hf => holds_of_selects wellFormed (mem_finds_iff.mp hf)
  rw [selected_eq_ofFinds]
  exact (Selection.records_ofFinds there).congr fun _ _ => mem_finds_iff

theorem scan_same_of_finds (wellFormed : t.WellFormed) {finds : List (TagKind × Path × ByteArray)}
    (same : ∀ kind file, (kind, file) ∈ finds ↔ s.Selects t cwd folders (c.side kind) file) :
    (Scan.ofFiles (Selection.ofFinds finds).files).Same (s.scan t cwd folders c) := by
  have there : ∀ find ∈ finds, t.Holds cwd find.2 :=
    fun _ hf => holds_of_selects wellFormed ((same _ _).mp hf)
  have records := (Selection.records_ofFinds there).congr same
  exact Scan.ofFiles_same
    (Selection.unspelled_of_records records (s.records_scan wellFormed cwd folders c))

theorem components_of_selects (wellFormed : t.WellFormed)
    (straight : ∀ folder ∈ folders, t.Straight cwd folder) {side : Side} {file : Path × ByteArray}
    {l : Location} (selected : s.Selects t cwd folders side file)
    (leads : t.locate cwd file.1 = .ok l) :
    file.1.components = (FileTree.pathOf l).components := by
  obtain ⟨folder, listed, base, names, reached, -, there, path⟩ := exists_of_selects selected
  have own := FileTree.locate_reached wellFormed reached there
  rw [← path, leads] at own
  rw [path, Except.ok.inj own]
  exact Discovery.same_pathFrom wellFormed (straight folder listed) reached there

variable {others : List Path}

theorem selects_of_resolved {side : Side} {file : Path × ByteArray}
    (within : ∀ p ∈ folders.map (t.resolve cwd), p ∈ others.map (t.resolve cwd))
    (selected : s.Selects t cwd folders side file) : s.Selects t cwd others side file := by
  obtain ⟨folder, listed, base, leads, found⟩ := selected
  obtain ⟨other, listed', same⟩ := List.mem_map.mp (within _ (List.mem_map_of_mem listed))
  exact ⟨other, listed', base, same ▸ leads, same ▸ found⟩

section

variable (same : ∀ p, p ∈ folders.map (t.resolve cwd) ↔ p ∈ others.map (t.resolve cwd))

include same

theorem fault?_of_resolved : s.fault? folders c = s.fault? others c := by
  have none : folders.map (t.resolve cwd) = [] ↔ others.map (t.resolve cwd) = [] := by
    simp only [List.eq_nil_iff_forall_not_mem, same]
  rw [List.map_eq_nil_iff, List.map_eq_nil_iff] at none
  have empty : folders.isEmpty = others.isEmpty := by
    rw [Bool.eq_iff_iff, List.isEmpty_iff, List.isEmpty_iff, none]
  rw [fault?, fault?, empty]

theorem unspelled_of_resolved (wellFormed : t.WellFormed) :
    (s.selected t (t.roots cwd folders) c).files.map Selected.unspelled =
      (s.selected t (t.roots cwd others) c).files.map Selected.unspelled := by
  have records := (s.records_scan wellFormed cwd others c).congr fun kind file =>
    ⟨selects_of_resolved fun p => (same p).mpr, selects_of_resolved fun p => (same p).mp⟩
  exact Selection.unspelled_of_records (s.records_scan wellFormed cwd folders c) records

end

end Scanner

end RouteTags
