import RouteTags.Files.Access
import RouteTags.Selection.Excludes
import RouteTags.Selection.IgnoreFile
import RouteTags.Selection.Side

/-!
Discovery of source files below a root. A file is found when no ignore rule and no name hides
it or a folder on the way to it, no exclude glob takes it out, the include rules admit it, and it
is not too large.
-/
namespace RouteTags

structure Discovery where
  includes : List String := []
  excludes : List String := []
  standardExcludes : Bool := true
  hidden : Bool := false
  gitignore : Bool := true
  large : Bool := false
  maxSize : Nat := 2 * 1024 * 1024

/-- The ignore files of a tree, by rank: a verdict of an earlier kind counts before any of a
later one. The ignore file that a user has for all trees lies outside of them and is not looked at. -/
def ignoreFiles (t : FileTree) (gitignore : Bool) : List (List IgnoreFile) :=
  let names := IgnoreFile.ownName :: if gitignore then IgnoreFile.versionNames else []
  names.map (IgnoreFile.filesNamed · t)

def isHiddenName (name : String) : Bool :=
  name.toList.head? == some '.' && name.toList.getLast? != some '.'

/-- Is an entry passed by? What no rule speaks of is passed by for a hidden name; a rule that
keeps it outweighs the name. -/
def isPassedBy (ranks : List (List IgnoreFile)) (hidden : Bool) (l : Location) (isFolder : Bool) :
    Bool :=
  match ranks.findSome? (IgnoreFile.verdictOf · l isFolder) with
  | some .leaveOut => true
  | some .keep => false
  | none => !hidden && l.getLast?.any isHiddenName

def passedBy (ranks : List (List IgnoreFile)) (hidden : Bool) (t : FileTree) : List Location :=
  t.entries.filterMap fun (l, n) =>
    let isFolder := match n with
      | .folder => true
      | .file _ => false
    if isPassedBy ranks hidden l isFolder then some l else none

def isReached (passed : List Location) (base : Location) : List String → Bool
  | [] => true
  | name :: rest =>
    let here := base ++ [name]
    !passed.contains here && isReached passed here rest

namespace Discovery

def ofSide (side : Side) : Discovery := { includes := side.patterns }

def excluding (d : Discovery) (globs : List String) : Discovery :=
  { d with excludes := d.excludes ++ globs }

def excluded (d : Discovery) : Globs :=
  (if d.standardExcludes then Excludes.standard else []) ++ .ofTexts d.excludes

def fault? (d : Discovery) : Option GlobFault :=
  d.excluded.fault? <|> (Includes.ofPatterns d.includes).fault?

structure Search where
  passed : List Location
  excludes : Globs
  includes : Includes
  sizeLimit : Option Nat

def search (d : Discovery) (t : FileTree) : Search where
  passed := passedBy (ignoreFiles t d.gitignore) d.hidden t
  excludes := d.excluded
  includes := .ofPatterns d.includes
  sizeLimit := if d.large then none else some d.maxSize

namespace Search

def withinSize (s : Search) (bytes : ByteArray) : Bool :=
  match s.sizeLimit with
  | none => true
  | some limit => bytes.size ≤ limit

def admits (s : Search) (root : Location) (names : List String) (bytes : ByteArray) : Bool :=
  let text := String.intercalate "/" names
  s.withinSize bytes && s.includes.admits text && !s.excludes.accepts text &&
    isReached s.passed root names

/-- Is the file at a location found from a root? A root that is itself a file is found from
itself, by no names at all. -/
def finds (s : Search) (root l : Location) (bytes : ByteArray) : Bool :=
  match FileTree.below? root l with
  | some names => s.admits root names bytes
  | none => false

def walk (s : Search) (t : FileTree) (root : Location) : List (Location × ByteArray) :=
  t.files.filter fun (l, bytes) => s.finds root l bytes

end Search

def select (d : Discovery) (t : FileTree) (root : Location) : List (Location × ByteArray) :=
  (d.search t).walk t root

def pathFrom (root : Path) (base l : Location) : Path :=
  match FileTree.below? base l with
  | some (name :: names) => root.join (.ofNames (name :: names))
  | _ => root

/-- The files below a root that leads to `base`, each by the path on which it is reached. -/
def Search.reach (s : Search) (t : FileTree) (root : Path) (base : Location) :
    List (Path × ByteArray) :=
  (s.walk t base).map fun (l, bytes) => (pathFrom root base l, bytes)

def discover (d : Discovery) (t : FileTree) (cwd : Location) (root : Path) :
    Except GlobFault (List Path) :=
  match d.fault? with
  | some fault => .error fault
  | none =>
    match t.locate cwd root with
    | .error _ => .ok []
    | .ok base => .ok (((d.search t).reach t root base).map (·.1))

end Discovery

end RouteTags
