import RouteTags.Glob.Match

namespace RouteTags

namespace Glob

def expressionSigns : List Char := "\\.+*?()|[]\x7b\x7d^$#&-~".toList

def byteExpression (b : UInt8) : String :=
  if b < 128 then
    let c := Char.ofNat b.toNat
    if c ∈ expressionSigns then String.ofList ['\\', c] else String.ofList [c]
  else
    String.ofList ('\\' :: 'x' :: Nat.toDigits 16 b.toNat)

def rangeExpression (r : UInt8 × UInt8) : String :=
  if r.1 = r.2 then byteExpression r.1 else byteExpression r.1 ++ "-" ++ byteExpression r.2

end Glob

open Glob

mutual

def Token.expression (bound : Bool) : Token → String
  | .byte b => byteExpression b
  | .any => if bound then "[^/]" else "."
  | .many => if bound then "[^/]*" else ".*"
  | .deepFirst => "(?:/?|.*/)"
  | .deepMiddle => "(?:/|/.*/)"
  | .deepLast => "/.*"
  | .oneOf negated ranges =>
    "[" ++ (if negated then "^" else "") ++ String.join (ranges.map rangeExpression) ++ "]"
  | .choice branches =>
    if Token.choiceVoid branches then ""
    else "(?:" ++ String.intercalate "|" (Token.branchExpressions bound branches) ++ ")"

def Token.branchExpressions (bound : Bool) : List (List Token) → List String
  | [] => []
  | branch :: branches =>
    let others := Token.branchExpressions bound branches
    if Token.listVoid branch then others else Token.listExpression bound branch :: others

def Token.listExpression (bound : Bool) : List Token → String
  | [] => ""
  | t :: ts => t.expression bound ++ Token.listExpression bound ts

end

def Glob.expression (g : Glob) : String :=
  "(?-u)^" ++
    (match g.tokens with
    | [.deepFirst] => ".*"
    | tokens => Token.listExpression g.bound tokens) ++ "$"

end RouteTags
