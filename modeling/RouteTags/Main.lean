import RouteTags.Command.Run

/-!
The command line. What a command looks at is read from disk into a tree, the command is run on
that tree, and what is new in the tree afterwards is written to disk.
-/
namespace RouteTags.Command

def readNode (l : Location) : IO (Option Node) := do
  let path := (← IO.currentDir) / (FileTree.pathOf l).text
  try
    match (← path.metadata).type with
    | .dir => pure (some .folder)
    | .file => pure (some (.file (← IO.FS.readBinFile path)))
    | _ => pure none
  catch _ => pure none

partial def readBelow (l : Location) : IO (List (Location × Node)) := do
  let path := (← IO.currentDir) / (FileTree.pathOf l).text
  let entries ← try path.readDir catch _ => pure #[]
  let found ← entries.toList.mapM fun entry => do
    let here := l ++ [entry.fileName]
    match (← entry.path.symlinkMetadata).type with
    | .dir => pure ((here, .folder) :: (← readBelow here))
    | .file => pure ((← readNode here).toList.map fun node => (here, node))
    | _ => pure []
  pure found.flatten

def locationsOn : Location → List Component → List Location
  | l, [] => [l]
  | l, .name s :: rest => l :: locationsOn (l ++ [s]) rest
  | l, .up :: rest => l :: locationsOn l.dropLast rest
  | l, _ :: rest => locationsOn l rest

def locationsOf (cwd : Location) (p : Path) : List Location :=
  locationsOn (if p.isAbsolute then [] else cwd) p.components

def withAncestors (l : Location) : List Location := (List.range (l.length + 1)).map l.take

/-- The part of the disk that a command line is about: the folders on the way to what it names,
with their ignore files, and all that is below its workspaces. -/
def readTree (cwd : Location) (i : Invocation) : IO FileTree := do
  let named := match i.task with
    | .links file => file :: i.workspaces
    | _ => i.workspaces
  let passed := ((named.flatMap (locationsOf cwd)).flatMap withAncestors).eraseDups
  let rules := passed.flatMap fun l =>
    (IgnoreFile.ownName :: IgnoreFile.versionNames).map (l ++ ·)
  let single ← (passed ++ rules).filterMapM fun l => do
    if l.isEmpty then pure none else pure ((← readNode l).map fun node => (l, node))
  let roots := i.workspaces.filterMap fun p => (locationsOf cwd p).getLast?
  let below ← roots.mapM readBelow
  pure (.ofEntries (single ++ below.flatten))

def writeNew (old new : FileTree) : IO Unit := do
  for (l, node) in new.entries do
    if (old.get? l).isNone then
      let path := (FileTree.pathOf l).text
      match node with
      | .folder => IO.FS.createDirAll path
      | .file bytes => IO.FS.writeBinFile path bytes

def runHere (words : List String) : IO UInt32 := do
  let here : Path := ⟨(← IO.currentDir).toString⟩
  let cwd := here.components.filterMap fun
    | .name s => some s
    | _ => none
  let tree ← match read words with
    | .ok i => readTree cwd i
    | .error _ => pure .empty
  let (after, reply) := run tree cwd words
  writeNew tree after
  IO.print reply.output
  IO.eprint reply.errors
  pure reply.code.toUInt32

end RouteTags.Command

def main (words : List String) : IO UInt32 := RouteTags.Command.runHere words
