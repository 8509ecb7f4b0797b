import RouteTags.Route.Mention
import RouteTags.Tag.Reader

namespace RouteTags.Tag

def numbered (tally : Text.LineTally) : List FoundTag → List (FoundTag × UInt32)
  | [] => []
  | m :: rest =>
    let (line, tally) := tally.lineOf m.start
    (m, line) :: numbered tally rest

def findNumbered (kind : TagKind) (text : String) : List (FoundTag × UInt32) :=
  numbered (.ofText text) (find kind text)

def mentions (kind : TagKind) (file : Path) (text : String) : List (Mention kind) :=
  (findNumbered kind text).map fun (m, line) => .onLine m.key file line

structure Extract where
  backend : List Declaration
  frontend : List Call

def extract (file : Path) (text : String) (backend frontend : Bool) : Extract where
  backend := if backend then mentions .backend file text else []
  frontend := if frontend then mentions .frontend file text else []

end RouteTags.Tag
