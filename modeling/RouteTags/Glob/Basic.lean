namespace RouteTags

inductive Token where
  | byte (b : UInt8)
  | any
  | many
  /-- `**/` in front: nothing, or anything that ends with a slash. -/
  | deepFirst
  /-- `/**` at the end: a slash and anything after it. -/
  | deepLast
  /-- `/**/` inside: a slash, or anything between two slashes. -/
  | deepMiddle
  | oneOf (negated : Bool) (ranges : List (UInt8 × UInt8))
  | choice (branches : List (List Token))

def slashByte : UInt8 := 47

def dotByte : UInt8 := 46

structure Glob where
  bound : Bool
  tokens : List Token

def Token.isByte (b : UInt8) : Token → Bool
  | .byte c => b == c
  | _ => false

def Token.isPlain : Token → Bool
  | .byte _ => true
  | _ => false

mutual

/-- Does a token stand for nothing at all? An alternation does when each of its alternatives
does. -/
def Token.isVoid : Token → Bool
  | .choice branches => Token.choiceVoid branches
  | _ => false

def Token.choiceVoid : List (List Token) → Bool
  | [] => true
  | branch :: branches => Token.listVoid branch && Token.choiceVoid branches

def Token.listVoid : List Token → Bool
  | [] => true
  | t :: ts => t.isVoid && Token.listVoid ts

end

end RouteTags
