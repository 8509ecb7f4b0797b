import RouteTags.Config.Basic
import RouteTags.Json.Skip

/-!
Reading the configuration file. A record of two fields may be written as a JSON object, in any
order and among other members, or as a list of its fields in order. A field that is missing has
its default, and one that is written twice is a fault; the first fault in reading order is the
one that is told.
-/
namespace RouteTags.Json

/-- The fault of finding another kind of value than the one expected. A word, number or string
that is no proper one is the greater fault. -/
def wrongType (expected : String) (s : List UInt8) : Except Stop α :=
  let found (u : Unexpected) (rest : List UInt8) : Except Stop α :=
    stopBefore (.wrongType u expected) rest
  let numeral (negative : Bool) (s : List UInt8) : Except Stop α := do
    let (n, rest) ← readNumeral .eofInValue s
    if n.isOutOfRange then stopBefore .numberOutOfRange rest else found (n.unexpected negative) rest
  match s with
  | [] => stopAt .expectedValue []
  | b :: rest =>
    if b = 110 then do found .null (← readWord "ull".toUTF8.toList rest)
    else if b = 116 then do found (.bool true) (← readWord "rue".toUTF8.toList rest)
    else if b = 102 then do found (.bool false) (← readWord "alse".toUTF8.toList rest)
    else if b = 45 then numeral true rest
    else if isDigit b then numeral false s
    else if b = quoteByte then do
      let (string, rest) ← readText rest
      found (.text string) rest
    else if b = openList then found .list s
    else if b = openRecord then found .record s
    else stopAt .expectedValue s

def nextItem (first : Bool) (s : List UInt8) : Except Stop (Bool × List UInt8) :=
  match skipLayout s with
  | [] => stopAt .eofInList []
  | b :: s =>
    if b = closeList then .ok (false, b :: s)
    else if b = commaByte ∧ ¬ first then
      match skipLayout s with
      | [] => stopAt .eofInValue []
      | c :: s => if c = closeList then stopAt .trailingComma (c :: s) else .ok (true, c :: s)
    else if first then .ok (true, b :: s)
    else stopAt .expectedListCommaOrEnd (b :: s)

def endList (s : List UInt8) : Except Stop (List UInt8) :=
  match skipLayout s with
  | [] => stopAt .eofInList []
  | b :: s =>
    if b = closeList then .ok s
    else if b = commaByte then
      match skipLayout s with
      | c :: rest => if c = closeList then stopAt .trailingComma (c :: rest)
        else stopAt .trailingCharacters (c :: rest)
      | [] => stopAt .trailingCharacters []
    else stopAt .trailingCharacters (b :: s)

def nextMember (first : Bool) (s : List UInt8) : Except Stop (Bool × List UInt8) :=
  match skipLayout s with
  | [] => stopAt .eofInRecord []
  | b :: s =>
    if b = closeRecord then .ok (false, b :: s)
    else if b = commaByte ∧ ¬ first then
      match skipLayout s with
      | [] => stopAt .eofInValue []
      | c :: s =>
        if c = quoteByte then .ok (true, s)
        else if c = closeRecord then stopAt .trailingComma (c :: s)
        else stopAt .keyMustBeText (c :: s)
    else if first then
      if b = quoteByte then .ok (true, s) else stopAt .keyMustBeText (b :: s)
    else stopAt .expectedRecordCommaOrEnd (b :: s)

def skipColon (s : List UInt8) : Except Stop (List UInt8) :=
  match skipLayout s with
  | [] => stopAt .eofInRecord []
  | b :: s => if b = colonByte then .ok s else stopAt .expectedColon (b :: s)

def readString (s : List UInt8) : Except Stop (String × List UInt8) :=
  match skipLayout s with
  | [] => stopAt .eofInValue []
  | b :: s => if b = quoteByte then readText s else wrongType "a string" (b :: s)

def readStrings : (fuel : Nat) → (first : Bool) → List UInt8 →
    Except Stop (List String × List UInt8)
  | 0, _, s => stopAt .eofInList s
  | fuel + 1, first, s => do
    match ← nextItem first s with
    | (false, s) => pure ([], ← endList s)
    | (true, s) =>
      let (item, s) ← readString s
      let (items, s) ← readStrings fuel false s
      pure (item :: items, s)

def readStringList (s : List UInt8) : Except Stop (List String × List UInt8) :=
  match skipLayout s with
  | [] => stopAt .eofInValue []
  | b :: s =>
    if b = openList then readStrings (s.length + 1) true s else wrongType "a sequence" (b :: s)

structure Shape (α : Type) where
  expected : String
  first : String
  second : String
  readField : List UInt8 → Except Stop (α × List UInt8)

/-- The members of an object whose brace is read; other members than the two fields are passed
over. Each takes a byte at least. -/
def readMembers (shape : Shape α) :
    (fuel : Nat) → (isFirst : Bool) → Option α → Option α → List UInt8 →
      Except Stop ((Option α × Option α) × List UInt8)
  | 0, _, _, _, s => stopAt .eofInRecord s
  | fuel + 1, isFirst, a, b, s => do
    match ← nextMember isFirst s with
    | (false, s) => pure ((a, b), s.drop 1)
    | (true, s) =>
      let (key, s) ← readText s
      if key = shape.first then
        if a.isSome then stopBefore (.duplicateField key) s
        else
          let (value, s) ← shape.readField (← skipColon s)
          readMembers shape fuel false (some value) b s
      else if key = shape.second then
        if b.isSome then stopBefore (.duplicateField key) s
        else
          let (value, s) ← shape.readField (← skipColon s)
          readMembers shape fuel false a (some value) s
      else readMembers shape fuel false a b (← skipValue (← skipColon s))

def readPosition (shape : Shape α) (first : Bool) (s : List UInt8) :
    Except Stop (Option α × List UInt8) := do
  match ← nextItem first s with
  | (false, s) => pure (none, s)
  | (true, s) =>
    let (value, s) ← shape.readField s
    pure (some value, s)

def readRecord (shape : Shape α) (s : List UInt8) :
    Except Stop ((Option α × Option α) × List UInt8) :=
  match skipLayout s with
  | [] => stopAt .eofInValue []
  | b :: s =>
    if b = openRecord then readMembers shape (s.length + 1) true none none s
    else if b = openList then do
      let (first, s) ← readPosition shape true s
      let (second, s) ← readPosition shape first.isNone s
      pure ((first, second), ← endList s)
    else wrongType shape.expected (b :: s)

end RouteTags.Json

namespace RouteTags

open Json

def Side.shape : Shape (List String) where
  expected := "struct SideConfig"
  first := foldersField
  second := extensionsField
  readField := readStringList

def Side.read (s : List UInt8) : Except Stop (Side × List UInt8) := do
  let ((folders, extensions), rest) ← readRecord Side.shape s
  pure (⟨folders.getD [], extensions.getD []⟩, rest)

namespace Config

def shape : Shape Side where
  expected := "struct EndpointerConfig"
  first := frontendField
  second := backendField
  readField := Side.read

def readAll (s : List UInt8) : Except Stop Config := do
  let ((frontend, backend), rest) ← readRecord shape s
  match skipLayout rest with
  | [] => pure ⟨frontend.getD .everything, backend.getD .everything⟩
  | rest => stopAt .trailingCharacters rest

def ofBytes (bytes : ByteArray) : Except Fault Config :=
  let text := bytes.toList
  match readAll text with
  | .ok c => .ok c
  | .error stop => .error (stop.fault text)

end Config

end RouteTags
