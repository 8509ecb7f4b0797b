import RouteTags.CrossReference
import RouteTags.Locator
import RouteTags.Tag.Extract

/-!
Links for one open document: every frontend tag becomes a link to the declaration of its route.
The cache keeps the links of each document as they were when it was last refreshed.
-/
namespace RouteTags

/-- Where a link leads: to a place, as its locator is written, or nowhere. -/
inductive Destination where
  | place (written : String)
  | nowhere
deriving DecidableEq, Repr

namespace Destination

def text : Destination → String
  | place written => written
  | nowhere => nowhereText

def isPlace : Destination → Bool
  | place _ => true
  | nowhere => false

end Destination

structure Link where
  start : Nat
  stop : Nat
  line : UInt32
  key : RouteKey
  destination : Destination
deriving DecidableEq, Repr

def destinationOf (index : CrossReference) (scheme : Scheme) (key : RouteKey) : Destination :=
  match index.find? key with
  | some d => .place (scheme.write d.locator)
  | none => .nowhere

def linksOf (text : String) (index : CrossReference) (scheme : Scheme) : List Link :=
  (Tag.findNumbered .frontend text).map fun (m, line) =>
    ⟨m.start, m.stop, line, m.key, destinationOf index scheme m.key⟩

structure LinkCache where
  documents : List (List Component × List Link)

namespace LinkCache

def empty : LinkCache := ⟨[]⟩

/-- The links of a document, under any spelling of its path. -/
def get? (c : LinkCache) (document : Path) : Option (List Link) :=
  c.documents.lookup document.components

def reset (c : LinkCache) (document : Path) : LinkCache :=
  ⟨c.documents.filter fun entry => entry.1 != document.components⟩

def refresh (c : LinkCache) (document : Path) (links : List Link) : LinkCache :=
  ⟨(document.components, links) :: (c.reset document).documents⟩

def clear (_ : LinkCache) : LinkCache := empty

def size (c : LinkCache) : Nat := c.documents.length

end LinkCache

end RouteTags
