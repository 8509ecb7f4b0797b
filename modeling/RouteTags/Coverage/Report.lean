import RouteTags.Coverage.CallSites
import RouteTags.Session

/-!
The coverage report of a workspace: route files without a backend tag, call sites without a
frontend tag, calls that lead nowhere, and declarations that came too late.
-/
namespace RouteTags

structure BareCall where
  file : String
  line : Nat
  extension : String
deriving DecidableEq, Repr

structure Report where
  missingTags : List String
  untagged : List BareCall
  unresolved : List Call
  duplicates : List Declaration
deriving DecidableEq, Repr

namespace Report

/-- Late declarations are told, but are no violation. -/
def isClean (r : Report) : Bool :=
  r.missingTags.isEmpty && r.untagged.isEmpty && r.unresolved.isEmpty

def violations (r : Report) : Nat :=
  r.missingTags.length + r.untagged.length + r.unresolved.length

end Report

structure Checker where
  /-- How the names of route files end; without it no route file is looked for. -/
  routeSuffix : Option String := none
  markers : List String := Coverage.defaultMarkers
  excludedFolders : List String := []
  lookback : Nat := Coverage.defaultLookback

namespace Checker

def excludeGlob (folder : String) : String :=
  String.ofList (Side.trimSlashes folder.toList) ++ "/**"

def discovery (c : Checker) (side : Side) : Discovery :=
  (Discovery.ofSide side).excluding (c.excludedFolders.map excludeGlob)

def fault? (c : Checker) (config : Config) : Option GlobFault :=
  let forRoutes := if c.routeSuffix.isSome then (c.discovery config.backend).fault? else none
  let forCalls := if c.markers.isEmpty then none else (c.discovery config.frontend).fault?
  forRoutes <|> forCalls

/-- The path of a file below the root, with slashes for backslashes. -/
def relativeText (root l : Location) : String :=
  let text := String.intercalate "/" ((FileTree.below? root l).getD [])
  String.ofList (text.toList.map fun c => if c = '\\' then '/' else c)

def hasSuffix (suffix : String) (l : Location) : Bool :=
  l.getLast?.any fun name => suffix.toList.isSuffixOf name.toList

def dottedExtension (l : Location) : String :=
  match (FileTree.pathOf l).extension? with
  | some e => "." ++ e
  | none => ""

def missingTags (c : Checker) (t : FileTree) (root : Location) (side : Side) : List String :=
  match c.routeSuffix with
  | none => []
  | some suffix =>
    ((c.discovery side).select t root).filterMap fun (l, bytes) =>
      if hasSuffix suffix l then
        match String.fromUTF8? bytes with
        | some text => if Coverage.mentionsBackend text then none else some (relativeText root l)
        | none => none
      else none

def untaggedIn (c : Checker) (root l : Location) (text : String) : List BareCall :=
  (Coverage.untaggedLines c.markers c.lookback text).map fun line =>
    ⟨relativeText root l, line + 1, dottedExtension l⟩

def untagged (c : Checker) (t : FileTree) (root : Location) (side : Side) : List BareCall :=
  if c.markers.isEmpty then []
  else
    ((c.discovery side).select t root).flatMap fun (l, bytes) =>
      match String.fromUTF8? bytes with
      | some text => c.untaggedIn root l text
      | none => []

def check (c : Checker) (t : FileTree) (root : Location) (config : Config) (s : Snapshot) :
    Report where
  missingTags := c.missingTags t root config.backend
  untagged := c.untagged t root config.frontend
  unresolved := s.unresolved
  duplicates := s.index.duplicates

def checkAt (c : Checker) (t : FileTree) (cwd : Location) (root : Path) (config : Config)
    (s : Snapshot) : Except GlobFault Report :=
  match c.fault? config with
  | some fault => .error fault
  | none =>
    match t.locate cwd root with
    | .ok l => .ok (c.check t l config s)
    | .error _ => .ok ⟨[], [], s.unresolved, s.index.duplicates⟩

end Checker

end RouteTags
