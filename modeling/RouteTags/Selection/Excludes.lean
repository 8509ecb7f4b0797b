import RouteTags.Glob.Set

namespace RouteTags.Excludes

def folders : List String :=
  [".git", ".endpointer", "target", "node_modules", "dist", "build", "out", "coverage", "vendor",
   ".venv", ".next"]

def files : List String := ["package-lock.json", "yarn.lock", "pnpm-lock.yaml", "Cargo.lock"]

def endings : List String :=
  [".min.js", ".min.css", ".map", ".png", ".jpg", ".jpeg", ".gif", ".webp", ".pdf", ".zip", ".gz",
   ".tar", ".tgz", ".jar", ".wasm", ".o", ".a", ".so", ".dylib", ".dll"]

def patterns : List String :=
  folders.map (fun name => "**/" ++ name ++ "/**") ++ files.map (fun name => "**/" ++ name) ++
    endings.map (fun ending => "**/*" ++ ending)

/-- The exclude set that is always in force unless it is switched off. -/
def standard : Globs := .ofTexts patterns

end RouteTags.Excludes
