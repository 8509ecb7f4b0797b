import RouteTags.Route.Mention

/-!
The cross-reference from keys to declarations. The first declaration of a key is the one that
calls lead to; later ones are kept aside as duplicates.
-/
namespace RouteTags

def nowhereText : String := "Cannot find matching backend endpoint"

structure CrossReference where
  routes : List Declaration
  duplicates : List Declaration
deriving DecidableEq, Repr

namespace CrossReference

def empty : CrossReference := ⟨[], []⟩

def find? (x : CrossReference) (key : RouteKey) : Option Declaration :=
  x.routes.find? fun d => d.key == key

def lookup (x : CrossReference) (method endpoint : String) : Option Declaration :=
  x.find? (.normal method endpoint)

def resolve (x : CrossReference) (call : Call) : Option Declaration := x.find? call.key

def size (x : CrossReference) : Nat := x.routes.length

/-- One more declaration; it counts only if its key is new. -/
def insert (x : CrossReference) (d : Declaration) : CrossReference :=
  if (x.find? d.key).isSome then { x with duplicates := x.duplicates ++ [d] }
  else { x with routes := x.routes ++ [d] }

def ofList (declarations : List Declaration) : CrossReference := declarations.foldl insert empty

def unresolved (x : CrossReference) (calls : List Call) : List Call :=
  calls.filter fun call => (x.resolve call).isNone

end CrossReference

end RouteTags
