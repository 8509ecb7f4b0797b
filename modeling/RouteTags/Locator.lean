import RouteTags.Route.Mention
import RouteTags.Text.Quoted

/-!
Locators as text. A locator is written as a URI, `scheme://file` and the path, with `:` and the
line at the end when there is one. Any scheme is read back, and so is a bare path with or
without a line; a path that starts with a drive letter travels behind a slash.
-/
namespace RouteTags

inductive LocatorError where
  | empty
  | missingPath (input : String)
deriving DecidableEq, Repr

def LocatorError.message : LocatorError → String
  | empty => "locator is empty"
  | missingPath input => "locator " ++ Text.quoted input ++ " does not contain a file path"

structure Scheme where
  name : String
deriving DecidableEq, Repr

def Scheme.standard : Scheme := ⟨"vscode"⟩

namespace Locator

def hasDrive : List Char → Bool
  | c :: ':' :: _ => c.isAlpha
  | _ => false

def lineSuffix : Option UInt32 → String
  | none => ""
  | some line => ":" ++ toString line.toNat

def isSchemeChar (c : Char) : Bool := c.isAlphanum || c == '+' || c == '-' || c == '.'

/-- A scheme is a letter, then letters, digits, `+`, `-` and `.`; ASCII throughout. -/
def isScheme : List Char → Bool
  | [] => false
  | c :: s => c.isAlpha && (c :: s).all isSchemeChar

def splitScheme? : List Char → Option (List Char × List Char)
  | [] => none
  | c :: s =>
    match Text.after? "://".toList (c :: s) with
    | some rest => some ([], rest)
    | none => (splitScheme? s).map fun (before, rest) => (c :: before, rest)

def dropScheme (s : List Char) : List Char :=
  match splitScheme? s with
  | none => s
  | some (before, rest) =>
    if isScheme before then (Text.after? "file".toList rest).getD rest else s

def decimal (digits : List Char) : Nat := digits.foldl (fun n c => 10 * n + (c.toNat - 48)) 0

def readLine? (digits : List Char) : Option UInt32 :=
  if digits.isEmpty || !digits.all Char.isDigit then none
  else if decimal digits < 4294967296 then some (decimal digits).toUInt32
  else none

/-- The path and the line: what follows the last colon, if that is a line number. -/
def takeLine (s : List Char) : List Char × Option UInt32 :=
  let backwards := s.reverse
  match backwards.dropWhile (· ≠ ':') with
  | [] => (s, none)
  | _ :: before =>
    match readLine? (backwards.takeWhile (· ≠ ':')).reverse with
    | some line => (before.reverse, some line)
    | none => (s, none)

def dropDriveSlash : List Char → List Char
  | '/' :: s => if hasDrive s then s else '/' :: s
  | s => s

/-- Reads any written form; the scheme decides nothing. -/
def read (input : String) : Except LocatorError Locator :=
  match Text.trim input.toList with
  | [] => .error .empty
  | trimmed =>
    let (rest, line) := takeLine (dropScheme trimmed)
    match dropDriveSlash rest with
    | [] => .error (.missingPath input)
    | path => .ok ⟨⟨String.ofList path⟩, line⟩

end Locator

def Scheme.write (scheme : Scheme) (l : Locator) : String :=
  let slash := if Locator.hasDrive l.path.text.toList then "/" else ""
  scheme.name ++ "://file" ++ slash ++ l.path.text ++ Locator.lineSuffix l.line

end RouteTags
