import RouteTags.Proofs.Path.Below
import RouteTags.Proofs.Selection.Patterns

namespace RouteTags

namespace Path

def Normal (p : Path) : Prop :=
  ∃ l : Location, (∀ name ∈ l, ProperName name) ∧ p = FileTree.pathOf l

end Path

namespace Path

variable {names : List String}

theorem last_of_names (proper : ∀ name ∈ names, ProperName name) :
    (Text.splitAt '/' (String.intercalate "/" names).toList).getLast? ≠ some ['.', '.'] := by
  by_cases top : names = []
  · rw [top]
    decide
  · rw [Text.splitAt_intercalate (fun name h => (proper name h).slashless) top, List.getLast?_map]
    intro dots
    obtain ⟨name, last, up⟩ := Option.map_eq_some_iff.mp dots
    exact (proper name (List.mem_of_getLast? last)).notUp up

theorem named_ofNames (proper : ∀ name ∈ names, ProperName name) :
    Glob.Named (Path.ofNames names).text := Glob.named_of_last (last_of_names proper)

end Path

namespace Side

def Holds (s : Side) (below : List Component) : Prop :=
  s.effectiveFolders = [] ∨ ∃ folder ∈ s.effectiveFolders,
    (Path.mk folder).components <+: below ∧ (Path.mk folder).components ≠ below

end Side

namespace Side.Literal

variable {s : Side} {l : Location}

end Side.Literal

namespace Side

end Side

end RouteTags
