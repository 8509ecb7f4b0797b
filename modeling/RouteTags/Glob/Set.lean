import RouteTags.Glob.Depth
import RouteTags.Glob.Expression
import RouteTags.Glob.Parse

namespace RouteTags

abbrev Globs := List Glob

inductive GlobFault where
  | alone (expression : String)
  | among (number : Nat)
deriving DecidableEq, Repr

def GlobFault.message : GlobFault → String
  | alone expression => "error parsing glob '" ++ expression ++ "': error parsing pattern 0"
  | among number => "error parsing pattern " ++ toString number

namespace Globs

def ofTexts (texts : List String) : Globs := texts.filterMap (Glob.ofText? .path)

def accepts (set : Globs) (text : String) : Bool :=
  let bytes := Text.utf8 text
  set.any (·.acceptsBytes bytes)

/-- What keeps the set from being used; those that look at an extension first are tried first. -/
def fault? (set : Globs) : Option GlobFault :=
  let ofForm (f : GlobForm) : List Glob := set.filter fun g => g.form = f
  match (ofForm .extendedPattern).find? fun g => !g.isUsable with
  | some g => some (.alone g.expression)
  | none => ((ofForm .pattern).findIdx? fun g => !g.isUsable).map .among

end Globs

end RouteTags
