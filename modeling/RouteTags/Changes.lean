import RouteTags.Config.Basic
import RouteTags.Selection.Excludes

namespace RouteTags

inductive Change where
  | config
  | files (paths : List Path)
deriving DecidableEq, Repr

namespace Change

def concernsConfig (roots : List Path) (p : Path) : Bool :=
  roots.any fun root => p.same (configPath root)

def concernsFiles (roots : List Path) (p : Path) : Bool :=
  roots.any fun root =>
    match p.below? root with
    | some relative => !Excludes.standard.accepts relative.text
    | none => false

/-- The changes of a batch, the configuration first; nothing is said of files if none is
relevant. -/
def ofBatch (roots paths : List Path) : List Change :=
  let relevant := paths.filter (concernsFiles roots)
  (if paths.any (concernsConfig roots) then [config] else []) ++
    (if relevant.isEmpty then [] else [files relevant])

end Change

end RouteTags
