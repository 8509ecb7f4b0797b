import RouteTags.Files.Tree

/-!
Access by path. A path is followed from the top or from a working folder, one piece at a time,
and everything on the way must be a folder. Reading, writing and making folders fail with the
cause that a file system gives.
-/
namespace RouteTags

inductive AccessError where
  | notFound
  | alreadyExists
  | notFolder
  | isFolder
  | notText
deriving DecidableEq, Repr

def AccessError.message : AccessError → String
  | notFound => "No such file or directory (os error 2)"
  | alreadyExists => "File exists (os error 17)"
  | notFolder => "Not a directory (os error 20)"
  | isFolder => "Is a directory (os error 21)"
  | notText => "stream did not contain valid UTF-8"

namespace FileTree

/-- One component further. Only a folder can be gone on from, and the top is above itself. -/
def follow (t : FileTree) (l : Location) (c : Option Component) : Except AccessError Location :=
  match t.get? l with
  | none => .error .notFound
  | some (.file _) => .error .notFolder
  | some .folder =>
    match c with
    | some (.name s) => .ok (l ++ [s])
    | some .up => .ok l.dropLast
    | _ => .ok l

def locate (t : FileTree) (cwd : Location) (p : Path) : Except AccessError Location :=
  if p.text.isEmpty then .error .notFound
  else (p.pieces.map (·.1)).foldlM t.follow (if p.isAbsolute then [] else cwd)

def lookup (t : FileTree) (cwd : Location) (p : Path) : Except AccessError (Location × Node) := do
  let l ← t.locate cwd p
  match t.get? l with
  | some n => pure (l, n)
  | none => throw .notFound

def pathExists (t : FileTree) (cwd : Location) (p : Path) : Bool := (t.lookup cwd p).toOption.isSome

def readBytes (t : FileTree) (cwd : Location) (p : Path) : Except AccessError ByteArray := do
  match ← t.lookup cwd p with
  | (_, .file bytes) => pure bytes
  | (_, .folder) => throw .isFolder

def readText (t : FileTree) (cwd : Location) (p : Path) : Except AccessError String := do
  match String.fromUTF8? (← t.readBytes cwd p) with
  | some text => pure text
  | none => throw .notText

def writeBytes (t : FileTree) (cwd : Location) (p : Path) (bytes : ByteArray) :
    Except AccessError FileTree := do
  let l ← t.locate cwd p
  match t.get? l with
  | some .folder => throw .isFolder
  | _ => pure (t.insert l (.file bytes))

def locateComponents (t : FileTree) (cwd : Location) (cs : List Component) :
    Except AccessError Location :=
  (cs.map some).foldlM t.follow (if cs.head? = some .root then [] else cwd)

def makeFolder (t : FileTree) (cwd : Location) (cs : List Component) :
    Except AccessError FileTree := do
  let l ← t.locateComponents cwd cs
  match t.get? l with
  | some _ => throw .alreadyExists
  | none => pure (t.insert l .folder)

def ensureFolder (t : FileTree) (cwd : Location) (cs : List Component) :
    Except AccessError FileTree :=
  match t.makeFolder cwd cs with
  | .ok t => .ok t
  | .error e =>
    match t.locateComponents cwd cs with
    | .ok l =>
      match t.get? l with
      | some .folder => .ok t
      | _ => .error e
    | .error _ => .error e

/-- Makes a folder and those on the way to it that are missing. The components come last first.
Folders that were made stay when a later one cannot be made. -/
def ensureFolders (t : FileTree) (cwd : Location) : List Component → FileTree × Option AccessError
  | [] => (t, none)
  | c :: before =>
    match t.ensureFolder cwd (c :: before).reverse with
    | .ok t => (t, none)
    | .error .notFound =>
      match t.ensureFolders cwd before with
      | (t, some e) => (t, some e)
      | (t, none) =>
        match t.ensureFolder cwd (c :: before).reverse with
        | .ok t => (t, none)
        | .error e => (t, some e)
    | .error e => (t, some e)

def makeFolders (t : FileTree) (cwd : Location) (p : Path) : FileTree × Option AccessError :=
  t.ensureFolders cwd p.components.reverse

/-- What an absolute path starts with: two slashes are kept, any other number counts as one. -/
def topOf : List Char → String
  | '/' :: '/' :: '/' :: _ => "/"
  | '/' :: '/' :: _ => "//"
  | _ => "/"

/-- A path from the top that means the same: its components less each `.`, and a slash at the
end if there was one. The empty path has no such form. -/
def absolute (cwd : Location) (p : Path) : Path :=
  let names := p.components.filterMap fun c =>
    match c with
    | .name s => some s
    | .up => some ".."
    | _ => none
  let chars := p.text.toList
  if chars.isEmpty then p
  else
    let names := if p.isAbsolute then names else cwd ++ names
    let slash := if chars.getLast? = some '/' ∧ names ≠ [] then "/" else ""
    ⟨topOf chars ++ String.intercalate "/" names ++ slash⟩

/-- The path of what is there, without detours; for a path that leads nowhere, the path made
absolute. -/
def resolve (t : FileTree) (cwd : Location) (p : Path) : Path :=
  match t.lookup cwd p with
  | .ok (l, _) => pathOf l
  | .error _ => absolute cwd p

end FileTree

end RouteTags
