import RouteTags.Text.Quoted

namespace RouteTags.Json

inductive Unexpected where
  | null
  | bool (b : Bool)
  | integer (digits : String)
  | decimal (digits : String)
  | text (s : String)
  | list
  | record
deriving DecidableEq, Repr

def Unexpected.message : Unexpected → String
  | null => "null"
  | bool b => "boolean `" ++ (if b then "true" else "false") ++ "`"
  | integer digits => "integer `" ++ digits ++ "`"
  | decimal digits => "floating point `" ++ digits ++ "`"
  | text s => "string " ++ Text.quoted s
  | list => "sequence"
  | record => "map"

inductive Cause where
  | eofInList
  | eofInRecord
  | eofInText
  | eofInValue
  | expectedColon
  | expectedListCommaOrEnd
  | expectedRecordCommaOrEnd
  | expectedWord
  | expectedValue
  | invalidEscape
  | invalidNumber
  | numberOutOfRange
  | invalidCodePoint
  | controlCharacter
  | keyMustBeText
  | loneSurrogate
  | trailingComma
  | trailingCharacters
  | unfinishedSurrogate
  | wrongType (found : Unexpected) (expected : String)
  | duplicateField (name : String)
deriving DecidableEq, Repr

def Cause.message : Cause → String
  | eofInList => "EOF while parsing a list"
  | eofInRecord => "EOF while parsing an object"
  | eofInText => "EOF while parsing a string"
  | eofInValue => "EOF while parsing a value"
  | expectedColon => "expected `:`"
  | expectedListCommaOrEnd => "expected `,` or `]`"
  | expectedRecordCommaOrEnd => "expected `,` or `\x7d`"
  | expectedWord => "expected ident"
  | expectedValue => "expected value"
  | invalidEscape => "invalid escape"
  | invalidNumber => "invalid number"
  | numberOutOfRange => "number out of range"
  | invalidCodePoint => "invalid unicode code point"
  | controlCharacter => "control character (\\u0000-\\u001F) found while parsing a string"
  | keyMustBeText => "key must be a string"
  | loneSurrogate => "lone leading surrogate in hex escape"
  | trailingComma => "trailing comma"
  | trailingCharacters => "trailing characters"
  | unfinishedSurrogate => "unexpected end of hex escape"
  | wrongType found expected => "invalid type: " ++ found.message ++ ", expected " ++ expected
  | duplicateField name => "duplicate field `" ++ name ++ "`"

inductive Category where
  | syntaxFault
  | eof
  | data
deriving DecidableEq, Repr

def Category.name : Category → String
  | syntaxFault => "Syntax"
  | eof => "Eof"
  | data => "Data"

def Cause.category : Cause → Category
  | eofInList | eofInRecord | eofInText | eofInValue => .eof
  | wrongType _ _ | duplicateField _ => .data
  | _ => .syntaxFault

structure Stop where
  cause : Cause
  rest : List UInt8
  atNext : Bool

/-- A fault with its place, line and column counted from one and in bytes. -/
structure Fault where
  cause : Cause
  line : Nat
  column : Nat
deriving DecidableEq, Repr

def place (read : List UInt8) : Nat × Nat :=
  read.foldl (fun here b => if b = 10 then (here.1 + 1, 0) else (here.1, here.2 + 1)) (1, 0)

def Stop.fault (s : Stop) (text : List UInt8) : Fault :=
  let (line, column) := place (text.take (text.length - s.rest.length + if s.atNext then 1 else 0))
  ⟨s.cause, line, column⟩

def Fault.message (f : Fault) : String :=
  f.cause.message ++ " at line " ++ toString f.line ++ " column " ++ toString f.column

def stopBefore (cause : Cause) (rest : List UInt8) : Except Stop α := .error ⟨cause, rest, false⟩

def stopAt (cause : Cause) (rest : List UInt8) : Except Stop α := .error ⟨cause, rest, true⟩

end RouteTags.Json
