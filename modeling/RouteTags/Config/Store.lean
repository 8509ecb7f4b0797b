import RouteTags.Config.Reader
import RouteTags.Files.Access

namespace RouteTags

inductive ConfigError where
  | access (path : Path) (cause : AccessError)
  | malformed (path : Path) (fault : Json.Fault)

namespace ConfigError

def source : ConfigError → String
  | access _ cause => cause.message
  | malformed _ fault => fault.message

def lead : ConfigError → String
  | access path _ => "failed to access config " ++ path.text ++ ": "
  | malformed path _ => "malformed config " ++ path.text ++ ": "

def message (e : ConfigError) : String := e.lead ++ e.source

end ConfigError

namespace Config

def tryLoad (t : FileTree) (cwd : Location) (root : Path) : Except ConfigError (Option Config) :=
  let path := configPath root
  if !t.pathExists cwd path then .ok none
  else
    match t.readBytes cwd path with
    | .error cause => .error (.access path cause)
    | .ok bytes =>
      match ofBytes bytes with
      | .ok c => .ok (some c)
      | .error fault => .error (.malformed path fault)

def save (t : FileTree) (cwd : Location) (root : Path) (c : Config) :
    FileTree × Except ConfigError Path :=
  let folder := root.join configFolder
  let path := configPath root
  match t.makeFolders cwd folder with
  | (t, some cause) => (t, .error (.access folder cause))
  | (t, none) =>
    match t.writeBytes cwd path c.fileText.toUTF8 with
    | .ok t => (t, .ok path)
    | .error cause => (t, .error (.access path cause))

/-- The configuration of a root. A missing one is created without rules; whatever goes wrong,
no rules are in force. -/
def load (t : FileTree) (cwd : Location) (root : Path) : FileTree × Config :=
  match tryLoad t cwd root with
  | .ok (some c) => (t, c)
  | .ok none => ((save t cwd root everything).1, everything)
  | .error _ => (t, everything)

end Config

end RouteTags
