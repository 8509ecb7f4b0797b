import RouteTags.Command.Arguments
import RouteTags.Coverage.CallSites
import RouteTags.Locator

namespace RouteTags.Command

inductive Task where
  | scan
  | routes
  | calls (onlyUnresolved filtered : Bool)
  | links (file : Path)
  | locate (text : String)
  | check (routeSuffix : Option String) (markers : List String) (withoutCalls : Bool)
      (excludedFolders : List String) (lookback : Nat)
  | template (kind : TagKind) (method endpoint : String)
  | init
deriving Repr

structure Invocation where
  task : Task
  workspaces : List Path
  json : Bool
  scheme : String
  verbose : Bool
deriving Repr

def sharedOptions : List OptionSpec :=
  [⟨"workspace", some 'w', .many, .path⟩, ⟨"json", none, .switch, .anything⟩,
   ⟨"scheme", none, .single, .anything⟩, ⟨"verbose", some 'v', .switch, .anything⟩,
   ⟨"help", some 'h', .help, .anything⟩]

def topOptions : List OptionSpec := sharedOptions ++ [⟨"version", some 'V', .version, .anything⟩]

def commands : List CommandSpec :=
  [⟨"scan", [], []⟩,
   ⟨"routes", [], []⟩,
   ⟨"calls",
     [⟨"unresolved", none, .switch, .anything⟩, ⟨"filtered", none, .switch, .anything⟩], []⟩,
   ⟨"links", [], [.path]⟩,
   ⟨"locate", [], [.anything]⟩,
   ⟨"check",
     [⟨"route-suffix", none, .single, .anything⟩, ⟨"marker", none, .many, .anything⟩,
      ⟨"no-call-check", none, .switch, .anything⟩, ⟨"exclude-dir", none, .many, .anything⟩,
      ⟨"lookback", none, .single, .count⟩], []⟩,
   ⟨"template", [⟨"method", none, .single, .anything⟩, ⟨"endpoint", none, .single, .anything⟩],
     [.kind]⟩,
   ⟨"init", [], []⟩]

def templateMethod : String := "GET"
def templateEndpoint : String := "/api/endpoint"

def taskOf (name : String) (l : Level) : Option Task :=
  let value? (option : String) : Option String := (l.values option).head?
  let place : String := l.placed.head?.getD ""
  match name with
  | "scan" => some .scan
  | "routes" => some .routes
  | "calls" => some (.calls (l.has "unresolved") (l.has "filtered"))
  | "links" => some (.links ⟨place⟩)
  | "locate" => some (.locate place)
  | "check" =>
    let markers := match l.values "marker" with
      | [] => Coverage.defaultMarkers
      | markers => markers
    let lookback := ((value? "lookback").bind fun s => readCount? s.toList).getD
      Coverage.defaultLookback
    some (.check (value? "route-suffix") markers (l.has "no-call-check") (l.values "exclude-dir")
      lookback)
  | "template" => (TagKind.ofText? place).map fun kind =>
      .template kind ((value? "method").getD templateMethod)
        ((value? "endpoint").getD templateEndpoint)
  | "init" => some .init
  | _ => none

/-- The values of a shared option: those behind the command count before those in front of
it. -/
def sharedValues (before after : Level) (name : String) : List String :=
  match after.values name with
  | [] => before.values name
  | values => values

def read (words : List String) : Except Ending Invocation := do
  let (before, reached) ← readLevel topOptions [] commands none false {} words
  match reached with
  | .words => throw .refused
  | .command spec rest =>
    let (after, _) ← readLevel (sharedOptions ++ spec.options) spec.places [] none false {} rest
    match taskOf spec.name after with
    | none => throw .refused
    | some task =>
      let workspaces := match sharedValues before after "workspace" with
        | [] => ["."]
        | workspaces => workspaces
      pure {
        task
        workspaces := workspaces.map Path.mk
        json := before.has "json" || after.has "json"
        scheme := (sharedValues before after "scheme").head?.getD Scheme.standard.name
        verbose := before.has "verbose" || after.has "verbose" }

end RouteTags.Command
