import RouteTags.Config.Basic
import RouteTags.Proofs.Path.Join

namespace RouteTags

def configNames : List String := [".endpointer", "config.json"]

theorem properName_config : ∀ name ∈ configNames, ProperName name := by decide

theorem configPath_eq (root : Path) : configPath root = root.join (.ofNames configNames) := by
  have folder : configFolder.isAbsolute = false := by decide
  have file : configFile.isAbsolute = false := by decide
  have both : (Path.ofNames configNames).isAbsolute = false := by decide
  have inside : ∀ s : String, (Path.mk (s ++ configFolder.text)).join configFile =
      ⟨s ++ (Path.ofNames configNames).text⟩ := by
    intro s
    have content : (s ++ configFolder.text).isEmpty = false := by simp [configFolder]
    have solid : ((s ++ configFolder.text).toList.getLast? == some '/') = false := by
      rw [String.toList_append, List.getLast?_append_of_ne_nil _ (by decide)]
      decide
    rw [Path.join, file, content, solid]
    simp only [Bool.false_eq_true, Bool.or_false, if_false, String.append_assoc]
    rfl
  unfold configPath
  rw [Path.join.eq_def root configFolder, Path.join.eq_def root, folder, both]
  simp only [Bool.false_eq_true, if_false]
  split
  · exact inside root.text
  · exact inside (root.text ++ "/")

theorem components_configPath (root : Path) : (configPath root).components =
    root.components ++ [.name ".endpointer", .name "config.json"] := by
  rw [configPath_eq]
  exact Path.components_join root properName_config (List.cons_ne_nil _ _)

theorem components_configFolder (root : Path) :
    (root.join configFolder).components = root.components ++ [.name ".endpointer"] := by
  have folder : configFolder = .ofNames [".endpointer"] := rfl
  have proper : ∀ name ∈ [".endpointer"], ProperName name := by decide
  rw [folder]
  exact Path.components_join root proper (List.cons_ne_nil _ _)

end RouteTags
