import RouteTags.Coverage.CallSites
import RouteTags.Proofs.Tag.Alone
import RouteTags.Proofs.Tag.Lines
import RouteTags.Proofs.Text.Lines

namespace RouteTags.Tag

theorem Opening.words {kind : TagKind} {s : List Char} (opening : Opening kind s) :
    marker <:+: s ∧ kind.literal.toList <:+: s := by
  obtain ⟨g₁, g₂, g₃, g₄, _, _, _, _, rfl⟩ := opening
  constructor
  · exact ⟨slashes ++ g₁, g₂ ++ kind.literal.toList ++ g₃ ++ methodLabel ++ g₄, by simp⟩
  · exact ⟨slashes ++ g₁ ++ marker ++ g₂, g₃ ++ methodLabel ++ g₄, by simp⟩

end RouteTags.Tag
