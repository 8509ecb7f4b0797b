import RouteTags.Tag.Grammar
import RouteTags.Route.Key
import RouteTags.Text.Line

/-!
Finding the tags of one kind in a text, from left to right. After a tag the search goes on
behind the blanks that follow it, so no two tags overlap.
-/
namespace RouteTags.Tag

structure Cursor where
  offset : Nat
  ahead : List Char

namespace Cursor

def expect? (c : Cursor) (word : List Char) : Option Cursor :=
  (Text.after? word c.ahead).map fun rest => ⟨c.offset + Text.byteLength word, rest⟩

def skipGaps (c : Cursor) : Cursor :=
  ⟨c.offset + Text.byteLength (c.ahead.takeWhile isGap), c.ahead.dropWhile isGap⟩

def value? (c : Cursor) : Option (List Char × Cursor) := do
  let opened ← c.expect? quote
  let value := opened.ahead.takeWhile isValueChar
  let closing : Cursor :=
    ⟨opened.offset + Text.byteLength value, opened.ahead.dropWhile isValueChar⟩
  let closed ← closing.expect? quote
  pure (value, closed)

end Cursor

structure Reading where
  method : List Char
  endpoint : List Char
  stop : Cursor

def read? (kind : TagKind) (start : Cursor) : Option Reading := do
  let opened ← start.expect? slashes
  let marked ← opened.skipGaps.expect? marker
  let kinded ← marked.skipGaps.expect? kind.literal.toList
  let labelled ← kinded.skipGaps.expect? methodLabel
  let (method, afterMethod) ← labelled.skipGaps.value?
  let parted ← afterMethod.expect? comma
  let relabelled ← parted.skipGaps.expect? endpointLabel
  let (endpoint, stop) ← relabelled.skipGaps.value?
  pure ⟨method, endpoint, stop⟩

end Tag

structure FoundTag where
  kind : TagKind
  key : RouteKey
  start : Nat
  stop : Nat
deriving DecidableEq, Repr

namespace Tag

def Reading.found (r : Reading) (kind : TagKind) (start : Nat) : FoundTag where
  kind := kind
  key := .normal (String.ofList r.method) (String.ofList r.endpoint)
  start := start
  stop := r.stop.offset

/-- The tags in what is ahead of `offset`. What lies before `resume` belongs to the tag that was
read last. -/
def findFrom (kind : TagKind) (resume offset : Nat) : List Char → List FoundTag
  | [] => []
  | c :: s =>
    if offset < resume then findFrom kind resume (offset + c.utf8Size) s
    else
      match read? kind ⟨offset, c :: s⟩ with
      | none => findFrom kind resume (offset + c.utf8Size) s
      | some r =>
        r.found kind offset ::
          findFrom kind r.stop.skipGaps.offset (offset + c.utf8Size) s

def find (kind : TagKind) (text : String) : List FoundTag := findFrom kind 0 0 text.toList

/-- Does a line mention a tag of this kind, whether it is well formed or not? -/
def mentionedIn (kind : TagKind) (line : List Char) : Bool :=
  Text.occursIn marker line && Text.occursIn kind.literal.toList line

def template (kind : TagKind) (method endpoint : String) : String :=
  "// " ++ String.ofList marker ++ " " ++ kind.literal ++ " method: \"" ++
    Text.uppercase method ++ "\", endpoint: \"" ++ endpoint ++ "\""

end RouteTags.Tag
