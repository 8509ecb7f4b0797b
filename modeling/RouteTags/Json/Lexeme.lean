import RouteTags.Json.Fault

namespace RouteTags.Json

def quoteByte : UInt8 := 34
def backslashByte : UInt8 := 92
def commaByte : UInt8 := 44
def colonByte : UInt8 := 58
def openList : UInt8 := 91
def closeList : UInt8 := 93
def openRecord : UInt8 := 123
def closeRecord : UInt8 := 125

def isLayout (b : UInt8) : Bool := b == 32 || b == 10 || b == 9 || b == 13

def skipLayout (s : List UInt8) : List UInt8 := s.dropWhile isLayout

def readWord : List UInt8 → List UInt8 → Except Stop (List UInt8)
  | [], s => .ok s
  | _ :: _, [] => stopBefore .eofInValue []
  | c :: word, b :: s => if c = b then readWord word s else stopBefore .expectedWord s

def hexDigit? (b : UInt8) : Option Nat :=
  if 48 ≤ b ∧ b ≤ 57 then some (b.toNat - 48)
  else if 65 ≤ b ∧ b ≤ 70 then some (b.toNat - 55)
  else if 97 ≤ b ∧ b ≤ 102 then some (b.toNat - 87)
  else none

def hexFour? (a b c d : UInt8) : Option Nat := do
  pure ((((← hexDigit? a) * 16 + (← hexDigit? b)) * 16 + (← hexDigit? c)) * 16 + (← hexDigit? d))

def shortEscape? (b : UInt8) : Option UInt8 :=
  [(34, 34), (92, 92), (47, 47), (98, 8), (102, 12), (110, 10), (114, 13), (116, 9)].lookup b

def isLeading (n : Nat) : Bool := 0xD800 ≤ n && n ≤ 0xDBFF

def isTrailing (n : Nat) : Bool := 0xDC00 ≤ n && n ≤ 0xDFFF

def pushCodePoint (n : Nat) (acc : List UInt8) : List UInt8 :=
  (String.utf8EncodeChar (Char.ofNat n)).reverse ++ acc

def pairValue (leading trailing : Nat) : Nat :=
  0x10000 + (leading - 0xD800) * 0x400 + (trailing - 0xDC00)

/-- The bytes of a string whose opening quote is read, up to its closing quote. `acc` holds what
was read, last first. -/
def readBytes (acc : List UInt8) : List UInt8 → Except Stop (List UInt8 × List UInt8)
  | [] => stopBefore .eofInText []
  | b :: s =>
    if b = quoteByte then .ok (acc.reverse, s)
    else if b = backslashByte then
      match s with
      | [] => stopBefore .eofInText []
      | e :: s =>
        match shortEscape? e with
        | some x => readBytes (x :: acc) s
        | none =>
          if e ≠ 117 then stopBefore .invalidEscape s
          else
            match s with
            | a :: b :: c :: d :: s =>
              match hexFour? a b c d with
              | none => stopBefore .invalidEscape s
              | some n =>
                if isTrailing n then stopBefore .loneSurrogate s
                else if isLeading n then
                  match s with
                  | [] => stopBefore .eofInText []
                  | x :: s =>
                    if x ≠ backslashByte then stopBefore .unfinishedSurrogate s
                    else
                      match s with
                      | [] => stopBefore .eofInText []
                      | y :: s =>
                        if y ≠ 117 then stopBefore .unfinishedSurrogate s
                        else
                          match s with
                          | a :: b :: c :: d :: s =>
                            match hexFour? a b c d with
                            | none => stopBefore .invalidEscape s
                            | some m =>
                              if isTrailing m then readBytes (pushCodePoint (pairValue n m) acc) s
                              else stopBefore .loneSurrogate s
                          | _ => stopBefore .eofInText []
                else readBytes (pushCodePoint n acc) s
            | _ => stopBefore .eofInText []
    else if b < 32 then stopBefore .controlCharacter s
    else readBytes (b :: acc) s

def readText (s : List UInt8) : Except Stop (String × List UInt8) := do
  let (bytes, rest) ← readBytes [] s
  match String.fromUTF8? ⟨bytes.toArray⟩ with
  | some string => pure (string, rest)
  | none => stopBefore .invalidCodePoint rest

/-- Past a string whose opening quote is read; what its bytes and surrogates mean is not
looked at. -/
def skipText : List UInt8 → Except Stop (List UInt8)
  | [] => stopBefore .eofInText []
  | b :: s =>
    if b = quoteByte then .ok s
    else if b = backslashByte then
      match s with
      | [] => stopBefore .eofInText []
      | e :: s =>
        if (shortEscape? e).isSome then skipText s
        else if e ≠ 117 then stopBefore .invalidEscape s
        else
          match s with
          | a :: b :: c :: d :: s =>
            if (hexFour? a b c d).isSome then skipText s else stopBefore .invalidEscape s
          | _ => stopBefore .eofInText []
    else if b < 32 then stopBefore .controlCharacter (b :: s)
    else skipText s

end RouteTags.Json
