import RouteTags.Glob.Basic

/-!
Reading a glob. `*`, `?`, classes, alternations and escapes are read from left to right; `**`
is special only as a whole component. Not every text is a glob: brackets and braces must be
paired, ranges must ascend, and a backslash needs something to escape.
-/
namespace RouteTags.Glob

structure Dialect where
  bound : Bool
  /-- Is a `[` that is never closed, and every later one, an ordinary character? -/
  lenient : Bool

def Dialect.path : Dialect := ⟨false, false⟩

def Dialect.ignore : Dialect := ⟨true, true⟩

inductive Bracket where
  | closed (negated : Bool) (ranges : List (Char × Char)) (rest : List Char)
  | unclosed
  | descending

/-- The ranges of a class, last first. A `]` or `-` in front is itself, and so is a `-` before
the closing bracket. -/
def readRanges (negated : Bool) : (first inRange : Bool) → List (Char × Char) → List Char → Bracket
  | _, _, _, [] => .unclosed
  | first, inRange, ranges, c :: s =>
    if c = ']' ∧ ¬ first then
      .closed negated (if inRange then ('-', '-') :: ranges else ranges).reverse s
    else if c = '-' ∧ ¬ first ∧ ¬ inRange then readRanges negated false true ranges s
    else
      match inRange, ranges with
      | true, (low, _) :: ranges =>
        if c < low then .descending else readRanges negated false false ((low, c) :: ranges) s
      | _, ranges => readRanges negated false false ((c, c) :: ranges) s

def readBracket : List Char → Bracket
  | c :: s => if c = '!' ∨ c = '^' then readRanges true true false [] s
    else readRanges false true false [] (c :: s)
  | [] => .unclosed

def charBytes (c : Char) : List UInt8 := String.utf8EncodeChar c

/-- A range of characters as ranges of bytes: each byte of its ends stands for itself, but from
the last byte of the lower end to the first byte of the upper end all are meant. -/
def byteRanges (r : Char × Char) : List (UInt8 × UInt8) :=
  let single (b : UInt8) : UInt8 × UInt8 := (b, b)
  if r.1 = r.2 then (charBytes r.1).map single
  else
    match (charBytes r.1).reverse, charBytes r.2 with
    | last :: before, first :: after =>
      before.reverse.map single ++ [(last, first)] ++ after.map single
    | _, _ => []

def pushLiteral (c : Char) (tokens : List Token) : List Token :=
  (charBytes c).reverse.map Token.byte ++ tokens

structure OpenChoice where
  done : List (List Token)
  outer : List Token

structure Progress where
  prev : Option Char
  tokens : List Token
  choices : List OpenChoice
  plainBrackets : Bool

/-- Two stars that are no component of their own count as two single ones. -/
def pushStars (tokens : List Token) : List Token := .many :: .many :: tokens

/-- What two stars stand for, and what is read with them. A slash or nothing must follow; in
front must be the start, a slash, or the start of an alternative. -/
def readStars (p : Progress) (s : List Char) : Progress × List Char :=
  let plain : Progress × List Char := ({ p with prev := some '*', tokens := pushStars p.tokens }, s)
  match p.tokens with
  | [] =>
    match s with
    | [] => ({ p with prev := some '*', tokens := [.deepFirst] }, [])
    | '/' :: s => ({ p with prev := some '/', tokens := [.deepFirst] }, s)
    | _ => plain
  | last :: before =>
    let opens := p.prev = some '/' ∨ (p.choices ≠ [] ∧ (p.prev = some ',' ∨ p.prev = some '\x7b'))
    if ¬ opens then plain
    else
      let deep (isLast : Bool) : List Token :=
        match last with
        | .deepFirst => .deepFirst :: before
        | .deepLast => .deepLast :: before
        | _ => (if isLast then .deepLast else .deepMiddle) :: before
      match s with
      | [] => ({ p with prev := some '*', tokens := deep true }, [])
      | '/' :: s => ({ p with prev := some '/', tokens := deep false }, s)
      | c :: _ =>
        if (c = ',' ∨ c = '\x7d') ∧ p.choices ≠ [] then
          ({ p with prev := some '*', tokens := deep true }, s)
        else plain

def readNext (dialect : Dialect) (p : Progress) (c : Char) (s : List Char) :
    Option (Progress × List Char) :=
  let literal (c : Char) : Progress := { p with prev := some c, tokens := pushLiteral c p.tokens }
  match c with
  | '?' => some ({ p with prev := some c, tokens := .any :: p.tokens }, s)
  | '*' =>
    match s with
    | '*' :: s => some (readStars p s)
    | _ => some ({ p with prev := some c, tokens := .many :: p.tokens }, s)
  | '[' =>
    if p.plainBrackets then some (literal c, s)
    else
      match readBracket s with
      | .closed negated ranges rest =>
        some ({ p with
          prev := some ']'
          tokens := .oneOf negated (ranges.flatMap byteRanges) :: p.tokens }, rest)
      | .unclosed =>
        if dialect.lenient then some ({ literal c with plainBrackets := true }, s) else none
      | .descending => none
  | '\x7b' =>
    some ({ p with prev := some c, tokens := [], choices := ⟨[], p.tokens⟩ :: p.choices }, s)
  | '\x7d' =>
    match p.choices with
    | [] => none
    | choice :: choices =>
      let branches := (p.tokens.reverse :: choice.done).reverse
      some ({ p with prev := some c, tokens := .choice branches :: choice.outer, choices }, s)
  | ',' =>
    match p.choices with
    | [] => some (literal c, s)
    | choice :: choices =>
      let choice := { choice with done := p.tokens.reverse :: choice.done }
      some ({ p with prev := some c, tokens := [], choices := choice :: choices }, s)
  | '\\' =>
    match s with
    | [] => none
    | d :: s => some (literal d, s)
  | c => some (literal c, s)

/-- Reads to the end. Each step takes at least one character, so as much fuel as there are
characters is enough. -/
def readAll (dialect : Dialect) : Nat → Progress → List Char → Option (List Token)
  | _, p, [] => if p.choices.isEmpty then some p.tokens.reverse else none
  | 0, _, _ :: _ => none
  | fuel + 1, p, c :: s =>
    (readNext dialect p c s).bind fun (p, rest) => readAll dialect fuel p rest

def ofText? (dialect : Dialect) (text : String) : Option Glob :=
  let s := text.toList
  (readAll dialect s.length ⟨none, [], [], false⟩ s).map (⟨dialect.bound, ·⟩)

end RouteTags.Glob
