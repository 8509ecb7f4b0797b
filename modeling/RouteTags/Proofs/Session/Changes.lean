import RouteTags.Changes
import RouteTags.Proofs.Config.Paths
import RouteTags.Proofs.Selection.Excluded
import RouteTags.Proofs.Session.Filter

namespace RouteTags

namespace Scanner

/-- A path of which a search on either side speaks, in whichever spelling. -/
def Discovers (s : Scanner) (t : FileTree) (cwd : Location) (folders : List Path) (c : Config)
    (p : Path) : Prop :=
  ∃ kind, ∃ folder ∈ folders, ∃ found,
    (s.discovery (c.side kind)).discover t cwd (t.resolve cwd folder) = .ok found ∧
      ∃ q ∈ found, p.same q = true

end Scanner

namespace Change

def paths : Change → List Path
  | config => []
  | files paths => paths

variable {roots batch : List Path}

theorem ofBatch_eq (roots batch : List Path) : ofBatch roots batch =
    (if batch.any (concernsConfig roots) then [config] else []) ++
      if batch.filter (concernsFiles roots) = [] then []
      else [files (batch.filter (concernsFiles roots))] := by
  simp only [ofBatch, List.isEmpty_iff]

theorem paths_ofBatch (roots batch : List Path) :
    (ofBatch roots batch).flatMap paths = batch.filter (concernsFiles roots) := by
  have none : (if batch.any (concernsConfig roots) then [config] else []).flatMap paths = [] := by
    split <;> rfl
  rw [ofBatch_eq, List.flatMap_append, none, List.nil_append]
  split
  · rename_i irrelevant
    exact irrelevant.symm
  · exact List.append_nil _

theorem files_mem_ofBatch_iff {changed : List Path} :
    files changed ∈ ofBatch roots batch ↔
      changed = batch.filter (concernsFiles roots) ∧ changed ≠ [] := by
  have other : files changed ∉ if batch.any (concernsConfig roots) then [config] else [] := by
    split <;> simp
  rw [ofBatch_eq, List.mem_append, or_iff_right other]
  split
  · rename_i irrelevant
    simp [irrelevant]
  · rename_i relevant
    rw [List.mem_singleton, files.injEq]
    exact ⟨fun same => ⟨same, same ▸ relevant⟩, And.left⟩

theorem config_mem_ofBatch_iff : config ∈ ofBatch roots batch ↔
    ∃ p ∈ batch, ∃ root ∈ roots,
      p.components = root.components ++ [.name ".endpointer", .name "config.json"] := by
  have other : config ∉ if batch.filter (concernsFiles roots) = [] then []
      else [files (batch.filter (concernsFiles roots))] := by
    split <;> simp
  rw [ofBatch_eq, List.mem_append, or_iff_left other]
  simp only [List.mem_ite_nil_right, List.mem_singleton, and_true, List.any_eq_true,
    concernsConfig, Path.same_iff, components_configPath]

theorem ofBatch_ordered (roots batch : List Path) :
    (ofBatch roots batch).Pairwise fun a b => a = config ∧ b ≠ config := by
  rw [ofBatch_eq]
  split <;> split <;> simp

theorem concernsFiles_of_components {root p : Path} {names : List String} (listed : root ∈ roots)
    (content : root.components ≠ []) (proper : ∀ name ∈ names, ProperName name)
    (whole : p.components = root.components ++ names.map .name)
    (shown : ¬ Excludes.Hides names) : concernsFiles roots p = true := by
  obtain ⟨relative, below, hidden⟩ := Excludes.standard_accepts_below proper content whole
  rw [concernsFiles, List.any_eq_true]
  refine ⟨root, listed, ?_⟩
  rw [below, Bool.not_eq_true', ← Bool.not_eq_true, hidden]
  exact shown

variable {t : FileTree}

theorem concernsFiles_of_mem_select (wellFormed : t.WellFormed) {s : Scanner} {side : Side}
    {cwd base : Location} {folders : List Path} {folder p : Path} {file : Location × ByteArray}
    (among : folder ∈ folders) (leads : t.locate cwd (t.resolve cwd folder) = .ok base)
    (found : file ∈ (s.discovery side).select t base)
    (same : p.components = (Discovery.pathFrom (t.resolve cwd folder) base file.1).components) :
    concernsFiles (folders.map (t.resolve cwd)) p = true := by
  obtain ⟨l, bytes⟩ := file
  obtain ⟨there, names, rfl⟩ := Scanner.exists_names_of_mem_select found
  have proper := wellFormed.proper_below there
  exact concernsFiles_of_components (List.mem_map_of_mem among)
    (FileTree.components_resolve leads) proper (same.trans (Discovery.components_pathFrom proper))
    (Discovery.not_hides_of_mem_select rfl proper found)

/-- A file that a scan of some folders finds is never missed when it changes. A batch tells which of
its paths concern the files below the folders, in its own order and as often as they come, and says
nothing if there are none; that the configuration of a folder is among them it tells once, first. -/
theorem ofBatch_never_misses (wellFormed : t.WellFormed) (cwd : Location) :
    (∀ (s : Scanner) (folders batch : List Path) (c : Config), ∀ p ∈ batch,
      s.Discovers t cwd folders c p →
        ∃ changed, files changed ∈ ofBatch (folders.map (t.resolve cwd)) batch ∧ p ∈ changed) ∧
    (∀ (s : Scanner) (folders batch : List Path) (c : Config),
      ∀ f ∈ (s.selected t (t.roots cwd folders) c).files, ∀ p ∈ batch, p.same f.path = true →
        ∃ changed, files changed ∈ ofBatch (folders.map (t.resolve cwd)) batch ∧ p ∈ changed) ∧
    (∀ roots batch changed, files changed ∈ ofBatch roots batch ↔
      changed = batch.filter (concernsFiles roots) ∧ changed ≠ []) ∧
    (∀ roots batch, config ∈ ofBatch roots batch ↔ ∃ p ∈ batch, ∃ root ∈ roots,
      p.components = root.components ++ [.name ".endpointer", .name "config.json"]) ∧
    (∀ roots batch, (ofBatch roots batch).Pairwise fun a b => a = config ∧ b ≠ config) ∧
    ∀ roots a b, (ofBatch roots (a ++ b)).flatMap paths =
      (ofBatch roots a).flatMap paths ++ (ofBatch roots b).flatMap paths := by
  have told : ∀ {roots batch : List Path} {p : Path}, p ∈ batch → concernsFiles roots p = true →
      ∃ changed, files changed ∈ ofBatch roots batch ∧ p ∈ changed := by
    intro roots batch p listed concerns
    have member : p ∈ batch.filter (concernsFiles roots) := List.mem_filter.mpr ⟨listed, concerns⟩
    exact ⟨_, files_mem_ofBatch_iff.mpr ⟨rfl, List.ne_nil_of_mem member⟩, member⟩
  refine ⟨?_, ?_, fun _ _ _ => files_mem_ofBatch_iff, fun _ _ => config_mem_ofBatch_iff,
    ofBatch_ordered, ?_⟩
  · rintro s folders batch c p listed ⟨kind, folder, among, found, discovered, q, member, same⟩
    obtain ⟨base, leads, file, selected, rfl⟩ := Discovery.exists_of_discover discovered member
    exact told listed
      (concernsFiles_of_mem_select wellFormed among leads selected (Path.same_iff.mp same))
  · intro s folders batch c f selected p listed same
    obtain ⟨kind, known⟩ := (s.records_scan wellFormed cwd folders c).spelled f selected
    obtain ⟨folder, among, base, names, leads, found, -, path⟩ := Scanner.exists_of_selects known
    exact told listed (concernsFiles_of_mem_select wellFormed among leads found
      ((Path.same_iff.mp same).trans (congrArg Path.components path)))
  · intro roots a b
    simp only [paths_ofBatch, List.filter_append]

def packageTree : FileTree where
  entries := [(["ws"], .folder), (["ws", "node_modules"], .folder),
    (["ws", "node_modules", "lib"], .folder),
    (["ws", "node_modules", "lib", "a.ts"],
      .file "// ENDPOINTER <backend> method: \"GET\", endpoint: \"/a\"".toUTF8)]
  ascending := by decide +kernel

theorem ofBatch_package :
    ofBatch ([⟨"/ws"⟩, ⟨"node_modules/lib"⟩].map (packageTree.resolve ["ws"]))
      [⟨"/ws/node_modules/b.ts"⟩, ⟨"/ws//node_modules/lib/./a.ts"⟩, ⟨"/ws/.endpointer/config.json"⟩] =
        [config, files [⟨"/ws//node_modules/lib/./a.ts"⟩]] ∧
    ∃ changed, files changed ∈ ofBatch ([⟨"/ws"⟩, ⟨"node_modules/lib"⟩].map (packageTree.resolve ["ws"]))
      [⟨"/ws/node_modules/b.ts"⟩, ⟨"/ws//node_modules/lib/./a.ts"⟩, ⟨"/ws/.endpointer/config.json"⟩] ∧
        ⟨"/ws//node_modules/lib/./a.ts"⟩ ∈ changed := by
  have wellFormed : packageTree.WellFormed := by decide +kernel
  have discovered : Scanner.Discovers {} packageTree ["ws"] [⟨"/ws"⟩, ⟨"node_modules/lib"⟩]
      .everything ⟨"/ws//node_modules/lib/./a.ts"⟩ :=
    ⟨.backend, ⟨"node_modules/lib"⟩, by decide, [⟨"/ws/node_modules/lib/a.ts"⟩], by decide +kernel,
      _, List.mem_cons_self, by decide +kernel⟩
  exact ⟨by decide +kernel, (ofBatch_never_misses wellFormed ["ws"]).1 {} _ _ .everything _
    (by decide) discovered⟩

end Change

end RouteTags
