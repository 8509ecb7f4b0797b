import RouteTags.Files.Tree
import RouteTags.Proofs.Path.Components
import Mathlib.Data.List.Basic

namespace RouteTags

structure ProperName (name : String) : Prop where
  nonempty : name.toList ≠ []
  notHere : name.toList ≠ ['.']
  notUp : name.toList ≠ ['.', '.']
  slashless : '/' ∉ name.toList

instance (name : String) : Decidable (ProperName name) :=
  decidable_of_iff (name.toList ≠ [] ∧ name.toList ≠ ['.'] ∧ name.toList ≠ ['.', '.'] ∧
      '/' ∉ name.toList)
    ⟨fun h => ⟨h.1, h.2.1, h.2.2.1, h.2.2.2⟩, fun h => ⟨h.1, h.2, h.3, h.4⟩⟩

namespace Path

def pieceOf (name : String) : Piece := (some (.name name), name.toList)

theorem inner_of_proper {name : String} (proper : ProperName name) :
    inner name.toList = pieceOf name := by
  have solid : ¬ (name.toList = [] ∨ name.toList = ['.']) := by
    simp only [not_or]
    exact ⟨proper.nonempty, proper.notHere⟩
  rw [inner, if_neg solid, if_neg proper.notUp, String.ofList_toList, pieceOf]

theorem pieces_pathOf {l : Location} (proper : ∀ name ∈ l, ProperName name) (nonempty : l ≠ []) :
    (FileTree.pathOf l).pieces = (some .root, []) :: l.map pieceOf := by
  have text : FileTree.pathOf l = ofChars ('/' :: (String.intercalate "/" l).toList) := by
    rw [FileTree.pathOf, ofChars]
    congr 1
    apply String.toList_injective
    simp
  have cut : Text.splitAt '/' ('/' :: (String.intercalate "/" l).toList) =
      [] :: l.map String.toList := by
    have first := Text.splitAt_append_cons '/' [] (String.intercalate "/" l).toList
    rw [List.nil_append, Text.splitAt_intercalate (fun name h => (proper name h).slashless)
      nonempty] at first
    exact first
  rw [text, pieces_of_splitAt cut (.inr (by simpa using nonempty)), List.map_map]
  exact congrArg (List.cons _) (List.map_congr_left fun name h => inner_of_proper (proper name h))

theorem components_pathOf {l : Location} (proper : ∀ name ∈ l, ProperName name) :
    (FileTree.pathOf l).components = .root :: l.map .name := by
  by_cases top : l = []
  · rw [top]
    rfl
  · rw [components, pieces_pathOf proper top, List.filterMap_cons, List.filterMap_map,
      ← List.filterMap_eq_map]
    rfl

theorem eq_of_same_pathOf {l m : Location} (properL : ∀ name ∈ l, ProperName name)
    (properM : ∀ name ∈ m, ProperName name)
    (same : (FileTree.pathOf l).same (FileTree.pathOf m) = true) : l = m := by
  rw [same_iff, components_pathOf properL, components_pathOf properM] at same
  exact List.map_injective_iff.mpr (fun _ _ => Component.name.inj) (List.cons.inj same).2

end Path

end RouteTags
