import RouteTags.Files.Tree
import RouteTags.Glob.Set
import RouteTags.Text.Blank

/-!
Ignore files. Each line is a rule on the paths below the folder of the file; the last rule that
matches decides, and a rule that starts with `!` keeps what it matches.
-/
namespace RouteTags

structure IgnoreRule where
  glob : Glob
  keeps : Bool
  foldersOnly : Bool

namespace IgnoreRule

def endsWith (ending s : List Char) : Bool := ending.isSuffixOf s

def trimLine (line : List Char) : List Char :=
  if endsWith ['\\', ' '] line then line else Text.trimRight line

/-- The signs in front of a line: does it keep, is it bound to the folder of the file, and what
is left. A `!` or `#` behind a backslash is no sign. -/
def signs : List Char → Bool × Bool × List Char
  | '\\' :: '!' :: s => (false, false, '!' :: s)
  | '\\' :: '#' :: s => (false, false, '#' :: s)
  | '!' :: '/' :: s => (true, true, s)
  | '!' :: s => (true, false, s)
  | '/' :: s => (false, true, s)
  | s => (false, false, s)

def folderSign (s : List Char) : Bool × List Char :=
  if endsWith ['\\', '/'] s then (true, s.dropLast.dropLast)
  else if endsWith ['/'] s then (true, s.dropLast)
  else (false, s)

/-- The glob of a line on paths below the folder of the file: without a slash it is meant at any
depth, and what ends in `/**` is meant inside that folder only. -/
def globText (anchored : Bool) (s : List Char) : List Char :=
  let s := if !anchored && !s.contains '/' && s != ['*', '*'] then ['*', '*', '/'] ++ s else s
  if endsWith ['/', '*', '*'] s then s ++ ['/', '*'] else s

def ofLine? (line : List Char) : Option IgnoreRule :=
  if line.head? = some '#' then none
  else
    match trimLine line with
    | [] => none
    | s =>
      let (keeps, anchored, s) := signs s
      let (foldersOnly, s) := folderSign s
      (Glob.ofText? .ignore (String.ofList (globText anchored s))).map fun glob =>
        ⟨glob, keeps, foldersOnly⟩

def meets (r : IgnoreRule) (relative : List UInt8) (isFolder : Bool) : Bool :=
  (isFolder || !r.foldersOnly) && r.glob.acceptsBytes relative

end IgnoreRule

inductive Verdict where
  | leaveOut
  | keep
deriving DecidableEq, Repr

structure IgnoreFile where
  folder : Location
  rules : List IgnoreRule

namespace IgnoreFile

def ownName : List String := [".ignore"]

def versionNames : List (List String) := [[".gitignore"], [".git", "info", "exclude"]]

/-- The readable lines of an ignore file: from the first line on that is no text, nothing is
read. `line` and `done` are kept backwards. -/
def linesOf (line : List UInt8) (done : List (List Char)) : List UInt8 → List (List Char)
  | [] =>
    if line.isEmpty then done.reverse
    else
      match String.fromUTF8? ⟨line.reverse.toArray⟩ with
      | some s => (s.toList :: done).reverse
      | none => done.reverse
  | b :: s =>
    if b = Text.lineFeed then
      match String.fromUTF8? ⟨line.reverse.toArray⟩ with
      | some text => linesOf [] (Text.dropReturn text.toList :: done) s
      | none => done.reverse
    else linesOf (b :: line) done s

def dropMarks : List (List Char) → List (List Char)
  | [] => []
  | first :: rest => first.dropWhile (· = '\ufeff') :: rest

/-- The rules that some lines make. One rule that cannot be used takes all others with it. -/
def rulesOf (lines : List (List Char)) : List IgnoreRule :=
  let rules := lines.filterMap IgnoreRule.ofLine?
  if rules.all (·.glob.isUsable) then rules else []

def ofBytes (folder : Location) (bytes : ByteArray) : IgnoreFile :=
  ⟨folder, rulesOf (dropMarks (linesOf [] [] bytes.toList))⟩

def verdict? (f : IgnoreFile) (l : Location) (isFolder : Bool) : Option Verdict :=
  match FileTree.below? f.folder l with
  | none => none
  | some [] => none
  | some names =>
    let relative := Text.utf8 (String.intercalate "/" names)
    (f.rules.reverse.find? (·.meets relative isFolder)).map fun r =>
      if r.keeps then .keep else .leaveOut

/-- What several files say: the nearest folder decides first. The files come in the order of
depth, so that of the folders above a location the nearer ones come later. -/
def verdictOf (files : List IgnoreFile) (l : Location) (isFolder : Bool) : Option Verdict :=
  files.reverse.findSome? (·.verdict? l isFolder)

def ofNode? (name : List String) : Location × Node → Option IgnoreFile
  | (_, .folder) => none
  | (l, .file bytes) =>
    if name.isSuffixOf l then some (ofBytes (l.take (l.length - name.length)) bytes) else none

def filesNamed (name : List String) (t : FileTree) : List IgnoreFile :=
  (t.entries.filterMap (ofNode? name)).mergeSort fun f g => f.folder.length ≤ g.folder.length

end IgnoreFile

end RouteTags
