import RouteTags.Tag.Reader

/-!
Call sites without a tag. A line that holds a marker is a call site; it is covered by the
nearest frontend tag in the lines just above it, and a tag covers one call site only.
-/
namespace RouteTags.Coverage

def defaultMarkers : List String := ["fetch("]

def defaultLookback : Nat := 3

def isCallSite (markers : List (List Char)) (line : List Char) : Bool :=
  markers.any fun m => Text.occursIn m line

structure LatestTag where
  line : Nat
  used : Bool

def LatestTag.covers (tag : LatestTag) (lookback line : Nat) : Bool :=
  !tag.used && line ≤ tag.line + lookback

/-- The call sites in what is left of a text that no tag covers. `line` is the number of the next
line, and `latest` is the tag that is nearest above it. -/
def untaggedFrom (markers : List (List Char)) (lookback : Nat) (line : Nat)
    (latest : Option LatestTag) : List (List Char) → List Nat
  | [] => []
  | text :: rest =>
    let called := isCallSite markers text
    let covered := latest.any (·.covers lookback line)
    let latest' :=
      if Tag.mentionedIn .frontend text then some ⟨line, false⟩
      else if called && covered then latest.map ({ · with used := true })
      else latest
    let behind := untaggedFrom markers lookback (line + 1) latest' rest
    if called && !covered then line :: behind else behind

def untaggedLines (markers : List String) (lookback : Nat) (text : String) : List Nat :=
  untaggedFrom (markers.map String.toList) lookback 0 none (Text.lines text.toList)

def mentionsBackend (text : String) : Bool :=
  (Text.lines text.toList).any (Tag.mentionedIn .backend)

end RouteTags.Coverage
