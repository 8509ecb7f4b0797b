import RouteTags.Json.Value
import RouteTags.Selection.Side

namespace RouteTags

structure Config where
  frontend : Side
  backend : Side
deriving DecidableEq, Repr

def foldersField : String := "includeFolders"
def extensionsField : String := "includeExtensions"

def frontendField : String := "frontend"
def backendField : String := "backend"

def Side.toJson (s : Side) : Json :=
  .record [(foldersField, .list (s.folders.map .text)),
    (extensionsField, .list (s.extensions.map .text))]

namespace Config

def everything : Config := ⟨.everything, .everything⟩

def toJson (c : Config) : Json :=
  .record [(frontendField, c.frontend.toJson), (backendField, c.backend.toJson)]

def fileText (c : Config) : String := c.toJson.pretty ++ "\n"

end Config

def configFolder : Path := ⟨".endpointer"⟩

def configFile : Path := ⟨"config.json"⟩

def configPath (root : Path) : Path := (root.join configFolder).join configFile

end RouteTags
