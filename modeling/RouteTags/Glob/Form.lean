import RouteTags.Glob.Basic

namespace RouteTags

inductive GlobForm where
  | whole
  | front
  | ending
  | name
  | extension
  /-- The last name of a path, from its last dot on, and then all of the text as a pattern. -/
  | extendedPattern
  | pattern
deriving DecidableEq, Repr

def GlobForm.asksForName : GlobForm → Bool
  | name | extension | extendedPattern => true
  | whole | front | ending | pattern => false

namespace Glob

def isPlain (tokens : List Token) : Bool := tokens.all (·.isPlain)

def isName : List Token → Bool
  | .deepFirst :: t :: rest => isPlain (t :: rest) && !(t :: rest).any (·.isByte slashByte)
  | _ => false

/-- A dot and text without dot or slash, behind a `*` that crosses slashes or behind `**/*`. -/
def isExtension (bound : Bool) (tokens : List Token) : Bool :=
  let isEnd : List Token → Bool
    | dot :: rest =>
      dot.isByte dotByte && isPlain rest &&
        !rest.any fun t => t.isByte dotByte || t.isByte slashByte
    | [] => false
  match tokens with
  | .deepFirst :: .many :: rest => isEnd rest
  | .many :: rest => !bound && isEnd rest
  | _ => false

def isFront (bound : Bool) (tokens : List Token) : Bool :=
  match tokens.getLast? with
  | some .many => !bound && isPlain tokens.dropLast && !tokens.dropLast.isEmpty
  | some .deepLast => isPlain tokens.dropLast
  | _ => false

/-- Text behind `**/`, or behind a `*` that crosses slashes; then it is more than a slash. -/
def isEnding (bound : Bool) (tokens : List Token) : Bool :=
  let isEnd (rest : List Token) : Bool :=
    !bound && isPlain rest && !rest.isEmpty && !(rest.length = 1 && rest.any (·.isByte slashByte))
  match tokens with
  | .deepFirst :: .many :: rest => isEnd rest
  | .deepFirst :: t :: rest => isPlain (t :: rest)
  | .many :: rest => isEnd rest
  | _ => false

def endsExtended : List Token → Bool
  | .byte b :: before => b != slashByte && (b == dotByte || endsExtended before)
  | _ => false

def form (g : Glob) : GlobForm :=
  let tokens := g.tokens
  if isName tokens then .name
  else if isPlain tokens && !tokens.isEmpty then .whole
  else if isExtension g.bound tokens then .extension
  else if isFront g.bound tokens then .front
  else if isEnding g.bound tokens then .ending
  else if endsExtended tokens.reverse then .extendedPattern
  else .pattern

end Glob

end RouteTags
