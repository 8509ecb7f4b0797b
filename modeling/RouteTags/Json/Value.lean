namespace RouteTags

inductive Json where
  | null
  | bool (b : Bool)
  | number (n : Nat)
  | text (s : String)
  | list (items : List Json)
  | record (members : List (String × Json))

namespace Json

def hexPair (n : Nat) : List Char :=
  let digit (d : Nat) : Char := if d < 10 then Char.ofNat (48 + d) else Char.ofNat (87 + d)
  [digit (n / 16), digit (n % 16)]

/-- How a character is written in a string: the quote, the backslash and control characters are
escaped, all others stand for themselves. -/
def escaped (c : Char) : List Char :=
  match c with
  | '"' => ['\\', '"']
  | '\\' => ['\\', '\\']
  | '\x08' => ['\\', 'b']
  | '\t' => ['\\', 't']
  | '\n' => ['\\', 'n']
  | '\x0c' => ['\\', 'f']
  | '\r' => ['\\', 'r']
  | c => if c.toNat < 0x20 then ['\\', 'u', '0', '0'] ++ hexPair c.toNat else [c]

def quotedText (s : String) : String :=
  "\"" ++ String.ofList (s.toList.flatMap escaped) ++ "\""

def newline (depth : Nat) : String := "\n" ++ String.ofList (List.replicate (2 * depth) ' ')

mutual

def render (depth : Nat) : Json → String
  | .null => "null"
  | .bool b => if b then "true" else "false"
  | .number n => toString n
  | .text s => quotedText s
  | .list [] => "[]"
  | .list (first :: rest) =>
    "[" ++ newline (depth + 1) ++ first.render (depth + 1) ++ renderItems (depth + 1) rest ++
      newline depth ++ "]"
  | .record [] => "\x7b\x7d"
  | .record ((name, first) :: rest) =>
    "\x7b" ++ newline (depth + 1) ++ quotedText name ++ ": " ++ first.render (depth + 1) ++
      renderMembers (depth + 1) rest ++ newline depth ++ "\x7d"

def renderItems (depth : Nat) : List Json → String
  | [] => ""
  | v :: rest => "," ++ newline depth ++ v.render depth ++ renderItems depth rest

def renderMembers (depth : Nat) : List (String × Json) → String
  | [] => ""
  | (name, v) :: rest =>
    "," ++ newline depth ++ quotedText name ++ ": " ++ v.render depth ++ renderMembers depth rest

end

def pretty (v : Json) : String := v.render 0

def ofOption (f : α → Json) : Option α → Json
  | some a => f a
  | none => .null

end Json

end RouteTags
