import RouteTags.Links
import RouteTags.Scan
import RouteTags.Tree.Basic

/-!
A session: the snapshot of the latest scan, and the route tree once it has been asked for. A
rescan replaces the snapshot as a whole and drops the tree, so that what is kept always belongs
to the snapshot at hand.
-/
namespace RouteTags

structure Snapshot where
  /-- The number of scans so far. It has no bound, so in one session it also tells the published
  snapshots apart. -/
  generation : Nat
  folders : List Path
  backend : List Declaration
  frontend : List Call
  index : CrossReference
  scanned : Nat
  skipped : Nat
deriving DecidableEq, Repr

namespace Snapshot

def initial : Snapshot := ⟨0, [], [], [], .empty, 0, 0⟩

def ofScan (generation : Nat) (folders : List Path) (scan : Scan) : Snapshot where
  generation := generation
  folders := folders
  backend := scan.backend
  frontend := scan.frontend
  index := .ofList scan.backend
  scanned := scan.scanned
  skipped := scan.skipped

def tree (s : Snapshot) : RouteTree := .build s.backend s.frontend s.index

def unresolved (s : Snapshot) : List Call := s.index.unresolved s.frontend

def calls (s : Snapshot) : Option Side → List Call
  | none => s.frontend
  | some side =>
    let includes := Includes.ofSide side
    s.frontend.filter fun call => includes.selects s.folders call.file

end Snapshot

structure Session where
  scanner : Scanner
  scheme : Scheme
  snapshot : Snapshot
  tree : Option RouteTree

structure Stats where
  generation : Nat
  endpoints : Nat
  routes : Nat
  calls : Nat
  unresolved : Nat
  scanned : Nat
  skipped : Nat
  hasTree : Bool
  hasScanned : Bool
deriving DecidableEq, Repr

namespace Session

def start (scanner : Scanner) (scheme : Scheme) : Session := ⟨scanner, scheme, .initial, none⟩

def publish (s : Session) (folders : List Path) (scan : Scan) : Session :=
  { s with
    snapshot := .ofScan (s.snapshot.generation + 1) folders scan
    tree := none }

def rescan (s : Session) (t : FileTree) (cwd : Location) (folders : List Path) (c : Config) :
    Except GlobFault Session :=
  match s.scanner.outcome t cwd folders c with
  | .error fault => .error fault
  | .ok scan => .ok (s.publish (folders.map (t.resolve cwd)) scan)

/-- Keeps a tree that was built from a snapshot, unless another one was published since. That it is
the same snapshot, and not one with the same content, is told by the generation. -/
def keepTree (s : Session) (builtFrom : Snapshot) (tree : RouteTree) : Session :=
  if builtFrom.generation = s.snapshot.generation then { s with tree := some tree } else s

def routeTree (s : Session) : RouteTree × Session :=
  match s.tree with
  | some tree => (tree, s)
  | none =>
    let built := s.snapshot.tree
    (built, s.keepTree s.snapshot built)

def calls (s : Session) (filter : Option Side) : Except GlobFault (List Call) :=
  match filter.bind fun side => (Includes.ofSide side).fault? with
  | some fault => .error fault
  | none => .ok (s.snapshot.calls filter)

def links (s : Session) (text : String) : List Link :=
  linksOf text s.snapshot.index s.scheme

def stats (s : Session) : Stats where
  generation := s.snapshot.generation
  endpoints := s.snapshot.backend.length
  routes := s.snapshot.index.size
  calls := s.snapshot.frontend.length
  unresolved := s.snapshot.unresolved.length
  scanned := s.snapshot.scanned
  skipped := s.snapshot.skipped
  hasTree := s.tree.isSome
  hasScanned := 0 < s.snapshot.generation

end Session

end RouteTags
