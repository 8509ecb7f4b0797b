import RouteTags.Coverage.Report
import RouteTags.Tree.Outline

namespace RouteTags.Command

structure CallRow where
  key : RouteKey
  file : Path
  /-- Counted from one; zero when the call has no line. -/
  line : Nat
  target : Option String
deriving DecidableEq, Repr

inductive Result where
  | scan (folders : List Path) (stats : Stats)
  | routes (items : List Item)
  | calls (rows : List CallRow)
  | links (file : Path) (found : List Link)
  | locate (locator : Locator) (encoded : String)
  | check (report : Report)
  | template (text : String)
  | init (path : Path) (created : Bool)

def shownLine (line : Option UInt32) : Option Nat :=
  match line with
  | some line => (oneBased line).map UInt32.toNat
  | none => some 0

def unlines (lines : List String) : String := String.join (lines.map (· ++ "\n"))

/-- The lines in front of the first that cannot be shown. -/
def linesShown : List (Option String) → List String
  | some line :: rest => line :: linesShown rest
  | _ => []

mutual

def itemLines (depth : Nat) : Item → List String
  | .item _ label description _ _ children =>
    (String.ofList (List.replicate (2 * depth) ' ') ++ label ++ "  " ++ description) ::
      itemsLines (depth + 1) children

def itemsLines (depth : Nat) : List Item → List String
  | [] => []
  | i :: rest => itemLines depth i ++ itemsLines depth rest

end

def block (heading : String) (lines : List (Option String)) : List (Option String) :=
  if lines.isEmpty then [] else some heading :: lines

def mentionLine {kind : TagKind} (m : Mention kind) : Option String :=
  (shownLine m.locator.line).map fun number =>
    "  " ++ m.key.display ++ " at " ++ m.file.text ++ ":" ++ toString number

def reportLines (r : Report) : List (Option String) :=
  block "Route files without a backend tag:" (r.missingTags.map fun file => some ("  " ++ file)) ++
  block "API calls without a frontend tag:" (r.untagged.map fun u =>
    some ("  " ++ u.file ++ ":" ++ toString u.line ++ " - ext: " ++ u.extension)) ++
  block "Frontend calls with no backend route:" (r.unresolved.map mentionLine) ++
  block "Duplicate backend declarations (first one wins):" (r.duplicates.map mentionLine) ++
  [some (if r.isClean then "All checks passed" else "Total violations: " ++ toString r.violations)]

def linkLine (s : Link) : Option String :=
  (oneBased s.line).map fun number =>
    "  line " ++ toString number.toNat ++ " [" ++ toString s.start ++ ".." ++ toString s.stop ++
      "] " ++ s.key.display ++ " -> " ++ s.destination.text

namespace Result

/-- The lines for people. One is missing where the number of a line overflows. -/
def lines : Result → List (Option String)
  | scan folders stats => .map some <|
    ["Indexed " ++ toString stats.scanned ++ " files (" ++ toString stats.skipped ++
        " skipped): " ++ toString stats.endpoints ++ " endpoints (" ++ toString stats.routes ++
        " routes), " ++ toString stats.calls ++ " frontend calls",
      "Unresolved frontend calls: " ++ toString stats.unresolved] ++
    folders.map fun f => "Workspace: " ++ f.text
  | routes items =>
    .map some (if items.isEmpty then ["No routes found"] else itemsLines 0 items)
  | calls rows => .map some <|
    ("Found " ++ toString rows.length ++ " frontend calls:") ::
      rows.map fun r =>
        "  " ++ r.key.display ++ " at " ++ r.file.text ++ ":" ++ toString r.line ++ " -> " ++
          r.target.getD nowhereText
  | links file found =>
    some (file.text ++ ": " ++ toString found.length ++ " links") :: found.map linkLine
  | locate locator encoded => .map some
    ["Path: " ++ locator.path.text,
      match locator.line with
      | some line => "Line: " ++ toString line.toNat ++ " (0-based)"
      | none => "Line: none",
      "Encoded: " ++ encoded]
  | check report => reportLines report
  | template text => [some text]
  | init path created =>
    [some ((if created then "Created " else "Config already exists: ") ++ path.text)]

end Result

def lineJson (line : Option UInt32) : Json := .ofOption (fun l => .number l.toNat) line

def locatorJson (l : Locator) : Json :=
  .record [("path", .text l.path.text), ("line", lineJson l.line)]

def mentionJson {kind : TagKind} (m : Mention kind) : Json :=
  .record [("method", .text m.key.method), ("endpoint", .text m.key.endpoint),
    ("file", .text m.file.text), ("locator", locatorJson m.locator)]

def linkJson (s : Link) : Json :=
  .record [("start", .number s.start), ("end", .number s.stop), ("line", .number s.line.toNat),
    ("method", .text s.key.method), ("endpoint", .text s.key.endpoint),
    ("target", .text s.destination.text)]

def rowJson (r : CallRow) : Json :=
  .record [("method", .text r.key.method), ("endpoint", .text r.key.endpoint),
    ("file", .text r.file.text), ("line", .number r.line), ("target", .ofOption .text r.target)]

mutual

def itemJson : Item → Json
  | .item kind label description expandable locator children =>
    .record <|
      [("kind", .text kind.name), ("label", .text label), ("description", .text description),
        ("expandable", .bool expandable)] ++
      (match locator with
        | some l => [("locator", locatorJson l)]
        | none => []) ++
      (if children.isEmpty then [] else [("children", .list (itemsJson children))])

def itemsJson : List Item → List Json
  | [] => []
  | i :: rest => itemJson i :: itemsJson rest

end

def reportJson (r : Report) : Json :=
  .record [("missing_backend_tags", .list (r.missingTags.map .text)),
    ("untagged_calls", .list (r.untagged.map fun u =>
      .record [("file", .text u.file), ("line", .number u.line),
        ("extension", .text u.extension)])),
    ("unresolved_calls", .list (r.unresolved.map mentionJson)),
    ("duplicate_declarations", .list (r.duplicates.map mentionJson))]

namespace Result

def toJson : Result → Json
  | scan folders stats =>
    .record [("type", .text "Scan"), ("workspaces", .list (folders.map fun f => .text f.text)),
      ("files", .number stats.scanned), ("skipped", .number stats.skipped),
      ("endpoints", .number stats.endpoints), ("routes", .number stats.routes),
      ("frontend_calls", .number stats.calls), ("unresolved_calls", .number stats.unresolved)]
  | routes items => .record [("type", .text "Routes"), ("routes", .list (itemsJson items))]
  | calls rows => .record [("type", .text "Calls"), ("results", .list (rows.map rowJson))]
  | links file found =>
    .record [("type", .text "Links"), ("file", .text file.text),
      ("spans", .list (found.map linkJson))]
  | locate locator encoded =>
    .record [("type", .text "Locate"), ("locator", locatorJson locator),
      ("encoded", .text encoded)]
  | check report => .record [("type", .text "Check"), ("report", reportJson report)]
  | template text => .record [("type", .text "Template"), ("text", .text text)]
  | init path created =>
    .record [("type", .text "Init"), ("path", .text path.text), ("created", .bool created)]

def succeeds : Result → Bool
  | check report => report.isClean
  | _ => true

end Result

end RouteTags.Command
