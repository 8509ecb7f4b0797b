import RouteTags.Glob.Basic

namespace RouteTags

def Token.width : Token → Nat
  | .deepLast => 2
  | .choice branches => if Token.choiceVoid branches then 0 else 1
  | _ => 1

def Token.listWidth : List Token → Nat
  | [] => 0
  | t :: ts => t.width + Token.listWidth ts

def Token.branchCount (branches : List (List Token)) : Nat :=
  branches.countP fun branch => !Token.listVoid branch

mutual

/-- The levels of a token. A group is one, and so is the choice between several things: between
several ranges, between the cases of a `**`, between several alternatives. -/
def Token.height (bound : Bool) : Token → Nat
  | .byte _ => 0
  | .any => if bound then 1 else 0
  | .many => if bound then 2 else 1
  | .deepFirst => 4
  | .deepMiddle => 4
  | .deepLast => 1
  | .oneOf _ ranges => if 1 < ranges.length then 2 else 1
  | .choice branches =>
    if Token.choiceVoid branches then 0
    else
      let choice := if 1 < Token.branchCount branches then 1 else 0
      1 + choice + Token.choiceHeight bound branches

def Token.choiceHeight (bound : Bool) : List (List Token) → Nat
  | [] => 0
  | branch :: branches =>
    let others := Token.choiceHeight bound branches
    if Token.listVoid branch then others
    else
      let row := if 1 < Token.listWidth branch then 1 else 0
      max (row + Token.listHeight bound branch) others

def Token.listHeight (bound : Bool) : List Token → Nat
  | [] => 0
  | t :: ts => max (t.height bound) (Token.listHeight bound ts)

end

namespace Glob

def maxHeight : Nat := 250

def height (g : Glob) : Nat := 1 + Token.listHeight g.bound g.tokens

def isUsable (g : Glob) : Bool := g.height ≤ maxHeight

end Glob

end RouteTags
