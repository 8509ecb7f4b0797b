import RouteTags.Glob.Set
import RouteTags.Path
import RouteTags.Text.Blank

namespace RouteTags

structure Side where
  folders : List String
  extensions : List String
deriving DecidableEq, Repr

namespace Side

def everything : Side := ⟨[], []⟩

def isEmpty (s : Side) : Bool := s.folders.isEmpty && s.extensions.isEmpty

def dropDots : List Char → List Char
  | '.' :: '/' :: s => dropDots s
  | s => s

def trimSlashes (s : List Char) : List Char :=
  ((s.dropWhile (· = '/')).reverse.dropWhile (· = '/')).reverse

/-- A folder as it stands in a glob: backslashes read as slashes, no `./` in front and no slash
at either end. A blank entry is none; the empty text is the root itself. -/
def folder? (entry : String) : Option String :=
  match (Text.trim entry.toList).map fun c => if c = '\\' then '/' else c with
  | [] => none
  | s =>
    let folder := trimSlashes (dropDots s)
    some (if folder = ['.'] then "" else String.ofList folder)

def extension? (entry : String) : Option String :=
  let s := match Text.trim entry.toList with
    | '.' :: s => s
    | s => s
  if s.isEmpty then none else some (String.ofList s)

def globIn (folder : String) (extension : Option String) : String :=
  let inside := match extension with
    | some e => "**/*." ++ e
    | none => "**"
  if folder.isEmpty then inside else folder ++ "/" ++ inside

/-- The globs of a side: each folder with each extension, or those of the list that says
something. -/
def patterns (s : Side) : List String :=
  let folders := s.folders.filterMap folder?
  let extensions := s.extensions.filterMap extension?
  match folders, extensions with
  | [], [] => []
  | folders, [] => folders.map (globIn · none)
  | [], extensions => extensions.map (globIn "" <| some ·)
  | folders, extensions => folders.flatMap fun f => extensions.map fun e => globIn f (some e)

end Side

/-- The include rules that a file must meet. A side with rules stays restricted even if none of
them is a glob: then it selects nothing. -/
structure Includes where
  restricted : Bool
  globs : Globs

namespace Includes

def ofPatterns (patterns : List String) : Includes := ⟨!patterns.isEmpty, .ofTexts patterns⟩

def ofSide (s : Side) : Includes := .ofPatterns s.patterns

def fault? (i : Includes) : Option GlobFault := i.globs.fault?

def admits (i : Includes) (relative : String) : Bool := !i.restricted || i.globs.accepts relative

/-- Does a path meet the rules below any of the roots? Without rules it need not lie below
one. -/
def selects (i : Includes) (roots : List Path) (p : Path) : Bool :=
  !i.restricted || roots.any fun root =>
    match p.below? root with
    | some relative => i.globs.accepts relative.text
    | none => false

end Includes

end RouteTags
