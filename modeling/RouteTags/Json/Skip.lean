import RouteTags.Json.Lexeme
import RouteTags.Json.Number

/-!
Passing over a value of any shape and depth. Its syntax is checked, its numbers may be of any
size and its strings need not be text.
-/
namespace RouteTags.Json

inductive Frame where
  | list
  | record
deriving DecidableEq, Repr

def Frame.closing : Frame → UInt8
  | list => closeList
  | record => closeRecord

def Frame.eof : Frame → Cause
  | list => .eofInList
  | record => .eofInRecord

def Frame.expected : Frame → Cause
  | list => .expectedListCommaOrEnd
  | record => .expectedRecordCommaOrEnd

def skipKey (f : Frame) (s : List UInt8) : Except Stop (List UInt8) :=
  match f with
  | .list => .ok s
  | .record =>
    match skipLayout s with
    | [] => stopAt .eofInRecord []
    | b :: s =>
      if b ≠ quoteByte then stopAt .keyMustBeText (b :: s)
      else do
        let s ← skipText s
        match skipLayout s with
        | [] => stopAt .eofInRecord []
        | b :: s => if b = colonByte then pure s else stopAt .expectedColon (b :: s)

/-- Behind a value: the frames that end here are closed. With nothing left open the value is
over; else a comma must follow, and the frames that are still open are given. -/
def closeFrames : List Frame → List UInt8 → Except Stop (List Frame × List UInt8)
  | [], s => .ok ([], s)
  | f :: frames, s =>
    match skipLayout s with
    | [] => stopAt f.eof []
    | b :: s =>
      if b = commaByte then .ok (f :: frames, s)
      else if b = f.closing then closeFrames frames s
      else stopAt f.expected (b :: s)

def skipScalar (b : UInt8) (s : List UInt8) : Except Stop (List UInt8) :=
  if b = 110 then readWord "ull".toUTF8.toList s
  else if b = 116 then readWord "rue".toUTF8.toList s
  else if b = 102 then readWord "alse".toUTF8.toList s
  else if b = 45 then (readNumeral .invalidNumber s).map (·.2)
  else if isDigit b then (readNumeral .invalidNumber (b :: s)).map (·.2)
  else if b = quoteByte then skipText s
  else stopAt .expectedValue (b :: s)

/-- Past the value that comes next, with some frames open. Each value takes a byte at least, so
as much fuel as there are bytes is enough. -/
def skipWithin : (fuel : Nat) → List Frame → List UInt8 → Except Stop (List UInt8)
  | 0, _, s => stopAt .eofInValue s
  | fuel + 1, frames, s =>
    let goOn (closed : List Frame × List UInt8) : Except Stop (List UInt8) :=
      match closed with
      | ([], s) => .ok s
      | (f :: frames, s) => do skipWithin fuel (f :: frames) (← skipKey f s)
    match skipLayout s with
    | [] => stopAt .eofInValue []
    | b :: s =>
      if b = openList ∨ b = openRecord then
        let f := if b = openList then Frame.list else .record
        match skipLayout s with
        | [] => stopAt f.eof []
        | c :: s =>
          if c = f.closing then do goOn (← closeFrames frames s)
          else do skipWithin fuel (f :: frames) (← skipKey f (c :: s))
      else do goOn (← closeFrames frames (← skipScalar b s))

def skipValue (s : List UInt8) : Except Stop (List UInt8) := skipWithin (s.length + 1) [] s

end RouteTags.Json
