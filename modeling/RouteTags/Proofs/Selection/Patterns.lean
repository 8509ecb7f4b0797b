import RouteTags.Selection.Side
import RouteTags.Proofs.Glob.Accepted
import RouteTags.Proofs.Glob.Usable
import RouteTags.Proofs.Path.Locations

namespace RouteTags

namespace Side

def effectiveFolders (s : Side) : List String := s.folders.filterMap folder?

theorem mem_of_mem_dropDots {s : List Char} {c : Char} (h : c ∈ dropDots s) : c ∈ s := by
  fun_induction dropDots s with
  | case1 s ih => exact List.mem_cons_of_mem _ (List.mem_cons_of_mem _ (ih h))
  | case2 s => exact h

theorem mem_of_mem_trimSlashes {s : List Char} {c : Char} (h : c ∈ trimSlashes s) : c ∈ s := by
  have inner := (List.dropWhile_suffix _).subset (List.mem_reverse.mp h)
  exact (List.dropWhile_suffix _).subset (List.mem_reverse.mp inner)

theorem not_backslash_of_folder? {entry folder : String} (effective : folder? entry = some folder) :
    '\\' ∉ folder.toList := by
  intro member
  unfold folder? at effective
  split at effective
  · cases effective
  · simp only [Option.some.injEq] at effective
    split at effective
    · rw [← effective] at member
      cases member
    · rw [← effective, String.toList_ofList] at member
      obtain ⟨c, -, same⟩ := List.mem_map.mp (mem_of_mem_dropDots (mem_of_mem_trimSlashes member))
      split at same
      · exact absurd same (by decide)
      · rename_i other
        exact other same

namespace Literal

variable {s : Side}

end Literal

end Side

end RouteTags
