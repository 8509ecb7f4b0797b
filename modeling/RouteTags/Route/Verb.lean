import RouteTags.Route.Key

namespace RouteTags.Verb

def ranked : List String := ["GET", "POST", "PUT", "PATCH", "DELETE"]

def rank (method : String) : Nat := ranked.idxOf method

/-- Listed verbs by place, the others after them by code point. -/
def order (a b : String) : Ordering := (compare (rank a) (rank b)).then (compare a b)

def le (a b : String) : Bool := (order a b).isLE

end RouteTags.Verb

namespace RouteTags.RouteKey

def order (a b : RouteKey) : Ordering :=
  (Verb.order a.method b.method).then (compare a.endpoint b.endpoint)

end RouteTags.RouteKey
