import RouteTags.Proofs.Text.Tally
import RouteTags.Tag.Extract

namespace RouteTags.Tag

theorem numbered_eq (tally : Text.LineTally) (tags : List FoundTag) :
    numbered tally tags = tags.map fun m => (m, Text.lineAt tally.text m.start) := by
  induction tags generalizing tally with
  | nil => rfl
  | cons m rest ih =>
    simp only [numbered, Text.LineTally.lineOf, List.map_cons]
    rw [ih, tally.text_seek, tally.line_seek, Text.lineAt]

theorem findNumbered_eq (kind : TagKind) (text : String) : findNumbered kind text =
    (find kind text).map fun m => (m, Text.lineAt (Text.utf8 text) m.start) :=
  numbered_eq (.ofText text) (find kind text)

theorem mentions_eq (kind : TagKind) (file : Path) (text : String) : mentions kind file text =
    (find kind text).map fun m => .onLine m.key file (Text.lineAt (Text.utf8 text) m.start) := by
  rw [mentions, findNumbered_eq, List.map_map]
  rfl

end RouteTags.Tag
