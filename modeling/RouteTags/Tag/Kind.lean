namespace RouteTags

inductive TagKind where
  | backend
  | frontend
deriving DecidableEq, Repr

namespace TagKind

def name : TagKind → String
  | backend => "backend"
  | frontend => "frontend"

def literal (k : TagKind) : String := "<" ++ k.name ++ ">"

/-- The lower case of a character as far as it can spell a kind: the ASCII capitals, and the
KELVIN SIGN, whose lower case is `k`. The lower case of any other character holds a character
that no kind has. -/
def fold (c : Char) : Char := if c = '\u212a' then 'k' else c.toLower

def ofText? (s : String) : Option TagKind :=
  let folded := s.toList.map fold
  if folded = backend.name.toList then some backend
  else if folded = frontend.name.toList then some frontend
  else none

def unknownMessage (s : String) : String := "Unknown tag kind: " ++ s

end TagKind

end RouteTags
