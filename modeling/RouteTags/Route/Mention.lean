import RouteTags.Path
import RouteTags.Route.Key
import RouteTags.Tag.Kind

namespace RouteTags

structure Locator where
  path : Path
  line : Option UInt32
deriving DecidableEq, Repr

/-- Two locators lead to one place when their paths are spellings of one path and their lines
agree. -/
def Locator.same (l m : Locator) : Bool := l.path.same m.path && l.line == m.line

structure Mention (kind : TagKind) where
  key : RouteKey
  file : Path
  locator : Locator
deriving DecidableEq, Repr

abbrev Declaration := Mention .backend
abbrev Call := Mention .frontend

def Mention.onLine {kind : TagKind} (key : RouteKey) (file : Path) (line : UInt32) :
    Mention kind :=
  ⟨key, file, ⟨file, some line⟩⟩

end RouteTags
