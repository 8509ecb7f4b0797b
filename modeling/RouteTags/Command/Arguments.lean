import RouteTags.Path
import RouteTags.Tag.Kind

namespace RouteTags.Command

inductive OptionUse where
  | switch
  | single
  | many
  | version
  | help
deriving DecidableEq, Repr

inductive ValueRule where
  | anything
  | path
  /-- Decimal digits, perhaps behind a plus sign, of at most sixty-four bits. -/
  | count
  | kind
deriving DecidableEq, Repr

structure OptionSpec where
  name : String
  short : Option Char := none
  use : OptionUse
  rule : ValueRule := .anything
deriving DecidableEq, Repr

structure CommandSpec where
  name : String
  options : List OptionSpec
  places : List ValueRule
deriving DecidableEq, Repr

inductive Ending where
  | refused
  | version
  | help
deriving DecidableEq, Repr

def readCount? (s : List Char) : Option Nat :=
  let digits := match s with
    | '+' :: rest => rest
    | s => s
  if digits.isEmpty || !digits.all Char.isDigit then none
  else
    let n := digits.foldl (fun n c => 10 * n + (c.toNat - 48)) 0
    if n < Nat.pow 2 64 then some n else none

def ValueRule.admits (rule : ValueRule) (value : List Char) : Bool :=
  match rule with
  | .anything => true
  | .path => !value.isEmpty
  | .count => (readCount? value).isSome
  | .kind => (TagKind.ofText? (String.ofList value)).isSome

structure Level where
  given : List (String × Option String) := []
  placed : List String := []
deriving DecidableEq, Repr

namespace Level

def has (l : Level) (name : String) : Bool := l.given.any fun g => g.1 == name

def values (l : Level) (name : String) : List String :=
  l.given.filterMap fun g => if g.1 = name then g.2 else none

def give (l : Level) (o : OptionSpec) : Except Ending Level :=
  match o.use with
  | .version => .error .version
  | .help => .error .help
  | .switch =>
    if l.has o.name then .error .refused else .ok { l with given := l.given ++ [(o.name, none)] }
  | .single | .many => .error .refused

def giveValue (l : Level) (o : OptionSpec) (value : List Char) : Except Ending Level :=
  if !o.rule.admits value || (o.use == .single && l.has o.name) then .error .refused
  else .ok { l with given := l.given ++ [(o.name, some (String.ofList value))] }

end Level

def OptionSpec.takesValue (o : OptionSpec) : Bool := o.use == .single || o.use == .many

def splitEquals : List Char → List Char × Option (List Char)
  | [] => ([], none)
  | c :: s =>
    if c = '=' then ([], some s)
    else
      let (before, after) := splitEquals s
      (c :: before, after)

/-- A word behind two dashes. The option that still waits for its value is given back. -/
def readLong (options : List OptionSpec) (l : Level) (word : List Char) :
    Except Ending (Level × Option OptionSpec) := do
  let (name, value) := splitEquals word
  match options.find? fun o => o.name.toList == name with
  | none => throw .refused
  | some o =>
    match o.takesValue, value with
    | true, some v => pure (← l.giveValue o v, none)
    | true, none => pure (l, some o)
    | false, some _ => throw .refused
    | false, none => pure (← l.give o, none)

/-- Letters behind one dash. The first that has a value takes the letters after it, less a `=`
in front, or waits if there are none. -/
def readShort (options : List OptionSpec) :
    Level → List Char → Except Ending (Level × Option OptionSpec)
  | l, [] => .ok (l, none)
  | l, c :: s => do
    match options.find? fun o => o.short == some c with
    | none => throw .refused
    | some o =>
      if o.takesValue then
        match s with
        | [] => pure (l, some o)
        | '=' :: value => pure (← l.giveValue o value, none)
        | value => pure (← l.giveValue o value, none)
      else readShort options (← l.give o) s

inductive LevelEnd where
  | words
  | command (spec : CommandSpec) (rest : List String)

/-- Reads the words of a level. `waiting` is the option whose value comes next, and `plain` says
that options are over. -/
def readLevel (options : List OptionSpec) (places : List ValueRule) (commands : List CommandSpec) :
    (waiting : Option OptionSpec) → (plain : Bool) → Level → List String →
      Except Ending (Level × LevelEnd)
  | waiting, _, l, [] =>
    if waiting.isSome || l.placed.length < places.length then .error .refused
    else .ok (l, .words)
  | waiting, plain, l, word :: rest =>
    let chars := word.toList
    let place : Except Ending (Level × LevelEnd) :=
      match places[l.placed.length]? with
      | some rule =>
        if rule.admits chars then
          readLevel options places commands none plain { l with placed := l.placed ++ [word] } rest
        else .error .refused
      | none => .error .refused
    if plain then place
    else
      match waiting with
      | some o =>
        match chars with
        | '-' :: _ :: _ => .error .refused
        | value => do readLevel options places commands none false (← l.giveValue o value) rest
      | none =>
        match commands.find? fun c => c.name == word with
        | some spec => .ok (l, .command spec rest)
        | none =>
          match chars with
          | ['-', '-'] => readLevel options places commands none true l rest
          | '-' :: '-' :: long => do
            let (l, waiting) ← readLong options l long
            readLevel options places commands waiting false l rest
          | '-' :: c :: short => do
            let (l, waiting) ← readShort options l (c :: short)
            readLevel options places commands waiting false l rest
          | _ => place

end RouteTags.Command
