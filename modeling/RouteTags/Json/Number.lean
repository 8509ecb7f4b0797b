import RouteTags.Json.Fault

namespace RouteTags.Json

def isDigit (b : UInt8) : Bool := 48 ≤ b && b ≤ 57

def takeDigits (s : List UInt8) : List UInt8 × List UInt8 :=
  (s.takeWhile isDigit, s.dropWhile isDigit)

def digitsValue (digits : List UInt8) : Nat := digits.foldl (fun n b => 10 * n + (b.toNat - 48)) 0

structure Numeral where
  whole : List UInt8
  fraction : List UInt8
  exponent : Option Int

def readWhole (early : Cause) (s : List UInt8) : Except Stop (List UInt8 × List UInt8) :=
  match s with
  | [] => stopBefore early []
  | b :: rest =>
    if b = 48 then
      match rest with
      | d :: _ => if isDigit d then stopAt .invalidNumber rest else .ok ([b], rest)
      | [] => .ok ([b], rest)
    else if isDigit b then .ok (takeDigits s)
    else stopBefore .invalidNumber rest

def readFraction (early : Cause) (s : List UInt8) : Except Stop (List UInt8 × List UInt8) :=
  match takeDigits s with
  | ([], []) => stopAt early []
  | ([], rest) => stopAt .invalidNumber rest
  | (digits, rest) => .ok (digits, rest)

def readExponent (early : Cause) (s : List UInt8) : Except Stop (Int × List UInt8) :=
  let (negative, s) := match s with
    | 43 :: rest => (false, rest)
    | 45 :: rest => (true, rest)
    | s => (false, s)
  match s with
  | [] => stopBefore early []
  | b :: rest =>
    if isDigit b then
      let (digits, rest) := takeDigits (b :: rest)
      let n : Int := digitsValue digits
      .ok (if negative then -n else n, rest)
    else stopBefore .invalidNumber rest

def readNumeral (early : Cause) (s : List UInt8) : Except Stop (Numeral × List UInt8) := do
  let (whole, s) ← readWhole early s
  let (fraction, s) ← match s with
    | 46 :: rest => readFraction early rest
    | s => pure ([], s)
  match s with
  | b :: rest =>
    if b = 101 ∨ b = 69 then
      let (exponent, s) ← readExponent early rest
      pure (⟨whole, fraction, some exponent⟩, s)
    else pure (⟨whole, fraction, none⟩, s)
  | [] => pure (⟨whole, fraction, none⟩, [])

/-- The digits that a value can take up within sixty-four bits, one after the other, and the
digits that are left. -/
def takeValue (n : Nat) : List UInt8 → Nat × List UInt8
  | [] => (n, [])
  | b :: s =>
    let m := 10 * n + (b.toNat - 48)
    if m < Nat.pow 2 64 then takeValue m s else (n, b :: s)

/-- A number as a value of sixty-four bits times a power of ten. Digits of the whole that do not
fit any more count as powers of ten, and those of the fraction not at all; but a digit of the
fraction is taken up if it still fits. -/
def Numeral.scaled (n : Numeral) : Nat × Int :=
  let (value, surplus) := takeValue 0 n.whole
  let (value, lost) := takeValue value n.fraction
  let point : Int := n.fraction.length - lost.length
  (value, n.exponent.getD 0 + surplus.length - point)

def nearestDouble (n : Nat) : Nat :=
  if n < Nat.pow 2 53 then n
  else
    let unit := Nat.pow 2 (n.log2 - 52)
    let low := n / unit
    let twice := 2 * (n % unit)
    if unit < twice ∨ (twice = unit ∧ low % 2 = 1) then (low + 1) * unit else low * unit

def doubleBound : Nat := Nat.pow 2 1024 - Nat.pow 2 970

/-- Is the number too large for a double, when its value and its power of ten are doubles that are
multiplied? A power of ten below one makes nothing too large. -/
def Numeral.isOutOfRange (n : Numeral) : Bool :=
  let (value, exponent) := n.scaled
  if value = 0 then false
  else
    match exponent with
    | .negSucc _ => false
    | .ofNat e =>
      308 < e || doubleBound ≤ nearestDouble value * nearestDouble (Nat.pow 10 e)

def Numeral.unexpected (n : Numeral) (negative : Bool) : Unexpected :=
  let sign := if negative then "-" else ""
  let whole := digitsValue n.whole
  let isInteger := n.fraction.isEmpty && n.exponent.isNone &&
    (if negative then 0 < whole && whole ≤ Nat.pow 2 63 else whole < Nat.pow 2 64)
  if isInteger then .integer (sign ++ toString whole)
  else
    let point := if n.fraction.isEmpty then ".0" else
      "." ++ String.ofList (n.fraction.map fun b => Char.ofNat b.toNat)
    let exponent := match n.exponent with
      | some e => "e" ++ toString e
      | none => ""
    .decimal (sign ++ toString whole ++ point ++ exponent)

end RouteTags.Json
