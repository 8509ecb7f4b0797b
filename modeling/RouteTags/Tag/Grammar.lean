import RouteTags.Tag.Kind

namespace RouteTags.Tag

def marker : List Char := "ENDPOINTER".toList

def slashes : List Char := ['/', '/']
def methodLabel : List Char := "method:".toList
def endpointLabel : List Char := "endpoint:".toList
def quote : List Char := ['"']
def comma : List Char := [',']

def isGap (c : Char) : Bool := c == ' ' || c == '\t'

def isValueChar (c : Char) : Bool := c != '"' && c != '\r' && c != '\n'

def Gap (s : List Char) : Prop := ∀ c ∈ s, isGap c = true

def Value (s : List Char) : Prop := ∀ c ∈ s, isValueChar c = true

/-- The text `s` is a whole tag of this kind, up to the quote that closes the endpoint, with
these two values between its quotes. -/
inductive Spelled (kind : TagKind) (method endpoint : List Char) : List Char → Prop
  | tag (beforeMarker beforeKind beforeMethod beforeValue beforeEndpoint beforeLast : List Char)
      (gaps : Gap beforeMarker ∧ Gap beforeKind ∧ Gap beforeMethod ∧ Gap beforeValue ∧
        Gap beforeEndpoint ∧ Gap beforeLast)
      (values : Value method ∧ Value endpoint) :
      Spelled kind method endpoint
        (slashes ++ beforeMarker ++ marker ++ beforeKind ++ kind.literal.toList ++
          beforeMethod ++ methodLabel ++ beforeValue ++ quote ++ method ++ quote ++ comma ++
          beforeEndpoint ++ endpointLabel ++ beforeLast ++ quote ++ endpoint ++ quote)

end RouteTags.Tag
