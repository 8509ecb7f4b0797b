import RouteTags.Command.Line
import RouteTags.Command.Result
import RouteTags.Config.Store

/-!
Running a command on a tree of files. What is shown, the exit code and the tree afterwards are a
function of the command line, the working folder and the tree.
-/
namespace RouteTags.Command

inductive Failure where
  | globs (fault : GlobFault)
  | locator (error : LocatorError)
  | config (error : ConfigError)
  | reading (file : Path) (cause : AccessError)
  | overflow

def overflowText : String := "attempt to add with overflow"

def Failure.message : Failure → String
  | globs fault => fault.message
  | locator error => error.message
  | config error => error.message ++ ": " ++ error.source
  | reading file cause => "Failed to read " ++ file.text ++ ": " ++ cause.message
  | overflow => overflowText

def callRows (scheme : Scheme) (index : CrossReference) (onlyUnresolved : Bool)
    (calls : List Call) : List CallRow :=
  calls.filterMap fun call =>
    let target := (index.resolve call).map fun d => scheme.write d.locator
    if onlyUnresolved && target.isSome then none
    else
      some ⟨call.key, call.file, (call.locator.line.map fun l => l.toNat + 1).getD 0, target⟩

/-- What a task makes of a scan of some folders under the configuration of the first, which is
created if it is missing. -/
def afterScan (t : FileTree) (cwd : Location) (scheme : Scheme) (folders : List Path)
    (root : Path) (task : FileTree → Config → Session → Except Failure Result) :
    FileTree × Except Failure Result :=
  let (t, config) := Config.load t cwd root
  match (Session.start {} scheme).rescan t cwd folders config with
  | .ok session => (t, task t config session)
  | .error fault => (t, .error (.globs fault))

def createConfig (t : FileTree) (cwd : Location) (root : Path) :
    FileTree × Except Failure Result :=
  match Config.tryLoad t cwd root with
  | .error e => (t, .error (.config e))
  | .ok (some _) => (t, .ok (.init (configPath root) false))
  | .ok none =>
    match Config.save t cwd root .everything with
    | (t, .ok _) => (t, .ok (.init (configPath root) true))
    | (t, .error e) => (t, .error (.config e))

def runTask (t : FileTree) (cwd : Location) (scheme : Scheme) (folders : List Path)
    (root : Path) (task : Task) : FileTree × Except Failure Result :=
  match task with
  | .scan => afterScan t cwd scheme folders root fun _ _ session =>
    .ok (.scan folders session.stats)
  | .routes => afterScan t cwd scheme folders root fun _ _ session =>
    match session.routeTree.1.outline with
    | some items => .ok (.routes items)
    | none => .error .overflow
  | .calls onlyUnresolved filtered => afterScan t cwd scheme folders root fun _ config session =>
    match session.calls (if filtered then some config.frontend else none) with
    | .ok calls => .ok (.calls (callRows scheme session.snapshot.index onlyUnresolved calls))
    | .error fault => .error (.globs fault)
  | .links file => afterScan t cwd scheme folders root fun t _ session =>
    match t.readText cwd file with
    | .ok text => .ok (.links file (session.links text))
    | .error cause => .error (.reading file cause)
  | .locate text =>
    match Locator.read text with
    | .ok locator => (t, .ok (.locate locator (scheme.write locator)))
    | .error e => (t, .error (.locator e))
  | .check routeSuffix markers withoutCalls excludedFolders lookback =>
    let checker : Checker :=
      { routeSuffix, markers := if withoutCalls then [] else markers, excludedFolders, lookback }
    afterScan t cwd scheme folders root fun t config session =>
      match checker.checkAt t cwd root config session.snapshot with
      | .ok report => .ok (.check report)
      | .error fault => .error (.globs fault)
  | .template kind method endpoint => (t, .ok (.template (Tag.template kind method endpoint)))
  | .init => createConfig t cwd root

structure Reply where
  code : Nat
  output : String
  errors : String
deriving DecidableEq, Repr

def versionText : String := "endpointer 0.1.0\n"

def usageText : String :=
  "Usage: endpointer [OPTIONS] <" ++ String.intercalate "|" (commands.map (·.name)) ++ ">\n"

def Ending.reply : Ending → Reply
  | .refused => ⟨2, "", usageText⟩
  | .version => ⟨0, versionText, ""⟩
  | .help => ⟨0, usageText, ""⟩

/-- An addition that overflows ends the program. What was shown before stays. -/
def Reply.panic (output : String) : Reply := ⟨101, output, overflowText ++ "\n"⟩

def replyOf (json : Bool) : Except Failure Result → Reply
  | .ok result =>
    let code := if result.succeeds then 0 else 1
    if json then ⟨code, result.toJson.pretty ++ "\n", ""⟩
    else
      let output := unlines (linesShown result.lines)
      if result.lines.all Option.isSome then ⟨code, output, ""⟩ else .panic output
  | .error .overflow => .panic ""
  | .error failure =>
    let errors :=
      if json then (Json.record [("error", .text failure.message)]).pretty ++ "\n"
      else "Error: " ++ failure.message ++ "\n"
    ⟨1, "", errors⟩

def invoke (t : FileTree) (cwd : Location) (i : Invocation) : FileTree × Reply :=
  match i.workspaces.map (t.resolve cwd) with
  | [] => (t, Ending.reply .refused)
  | root :: more =>
    let (t, result) := runTask t cwd ⟨i.scheme⟩ (root :: more) root i.task
    (t, replyOf i.json result)

def run (t : FileTree) (cwd : Location) (words : List String) : FileTree × Reply :=
  match read words with
  | .ok i => invoke t cwd i
  | .error ending => (t, ending.reply)

end RouteTags.Command
