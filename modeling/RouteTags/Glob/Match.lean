import RouteTags.Glob.Form
import RouteTags.Text.Line

/-!
Matching a glob. It goes through the tokens from the last to the first and keeps, for every
remainder of the text, whether the tokens behind match it: its time grows with the product of the
two lengths, whatever the wildcards.
-/
namespace RouteTags

/-- What is said of every remainder of a text, the whole text first and the empty one last. -/
abbrev Column := List Bool

namespace Column

def of (test : List UInt8 → Bool) : List UInt8 → Column
  | [] => [test []]
  | b :: s => test (b :: s) :: of test s

def first (c : Column) : Bool := c.headD false

def either (c d : Column) : Column := List.zipWith (· || ·) c d

def one (p : UInt8 → Bool) : List UInt8 → Column → Column
  | [], _ => [false]
  | b :: s, c => (p b && first c.tail) :: one p s c.tail

def run (p : UInt8 → Bool) : List UInt8 → Column → Column
  | [], c => [first c]
  | b :: s, c =>
    let behind := run p s c.tail
    (first c || p b && first behind) :: behind

def slash (text : List UInt8) (c : Column) : Column := one (· == slashByte) text c

def deep (text : List UInt8) (c : Column) : Column :=
  c.either (run (fun _ => true) text (slash text c))

theorem first_of (test : List UInt8 → Bool) (text : List UInt8) :
    first (of test text) = test text := by
  cases text <;> rfl

theorem either_of (k l : List UInt8 → Bool) (text : List UInt8) :
    (of k text).either (of l text) = of (fun s => k s || l s) text := by
  induction text with
  | nil => rfl
  | cons b s ih => simpa [either, of] using ih

theorem one_of (p : UInt8 → Bool) (k : List UInt8 → Bool) (text : List UInt8) :
    one p text (of k text) =
      of (fun | [] => false | b :: s => p b && k s) text := by
  induction text with
  | nil => rfl
  | cons b s ih => simpa [one, of, first_of] using ih

end Column

namespace Glob

def admits (bound : Bool) (b : UInt8) : Bool := !(bound && b == slashByte)

def inRanges (ranges : List (UInt8 × UInt8)) (b : UInt8) : Bool :=
  ranges.any fun r => r.1 ≤ b && b ≤ r.2

end Glob

open Glob

mutual

def Token.inFront (bound : Bool) (text : List UInt8) (c : Column) : Token → Column
  | .byte b => .one (· == b) text c
  | .any => .one (admits bound) text c
  | .many => .run (admits bound) text c
  | .deepFirst => .deep text c
  | .deepLast => .slash text (.run (fun _ => true) text c)
  | .deepMiddle => .slash text (.deep text c)
  | .oneOf negated ranges => .one (fun b => inRanges ranges b != negated) text c
  | .choice branches =>
    if Token.choiceVoid branches then c else Token.choiceInFront bound text c branches

/-- Which remainders one of the alternatives matches; an alternative that stands for nothing is
dropped. -/
def Token.choiceInFront (bound : Bool) (text : List UInt8) (c : Column) :
    List (List Token) → Column
  | [] => .of (fun _ => false) text
  | branch :: branches =>
    let others := Token.choiceInFront bound text c branches
    if Token.listVoid branch then others
    else (Token.listInFront bound text c branch).either others

def Token.listInFront (bound : Bool) (text : List UInt8) (c : Column) : List Token → Column
  | [] => c
  | t :: ts => t.inFront bound text (Token.listInFront bound text c ts)

end

namespace Glob

/-- Is the last component `..`? Such a path has no last name, though its text goes on. -/
def isNameless (s : List UInt8) : Bool :=
  s == [dotByte, dotByte] || [slashByte, dotByte, dotByte].isSuffixOf s

/-- Does the glob match the whole text? A lone `**/` matches everything. -/
def acceptsBytes (g : Glob) (s : List UInt8) : Bool :=
  match g.tokens with
  | [.deepFirst] => true
  | tokens =>
    if isNameless s && g.form.asksForName then false
    else (Token.listInFront g.bound s (.of List.isEmpty s) tokens).first

def accepts (g : Glob) (text : String) : Bool := g.acceptsBytes (Text.utf8 text)

end Glob

end RouteTags
