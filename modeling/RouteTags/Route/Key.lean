import RouteTags.Text.Blank
import RouteTags.Text.UpperCase

namespace RouteTags

structure RouteKey where
  method : String
  endpoint : String
deriving DecidableEq, Repr

namespace RouteKey

def slashed (endpoint : String) : String :=
  if endpoint.toList.head? = some '/' then endpoint else "/" ++ endpoint

/-- The normal form: blanks at the ends dropped, the method in upper case, the endpoint with a
slash in front. -/
def normal (method endpoint : String) : RouteKey where
  method := Text.uppercase (Text.trimmed method)
  endpoint := slashed (Text.trimmed endpoint)

def display (k : RouteKey) : String := k.method ++ " " ++ k.endpoint

end RouteKey

end RouteTags
