import RouteTags.CrossReference
import RouteTags.Route.Verb

/-!
The route tree. Routes hang at the node that the segments of their endpoint lead to, each with
the calls to it. Nodes are kept in the order of their labels; the routes of a node are put behind
those that came before, and sorted by verb when all are there.
-/
namespace RouteTags

structure Leaf where
  key : RouteKey
  declaration : Declaration
  calls : List Call
deriving DecidableEq, Repr

inductive Segment where
  | node (label path : String) (methods : List Leaf) (segments : List Segment)

namespace Segment

def label : Segment → String
  | node label _ _ _ => label

def path : Segment → String
  | node _ path _ _ => path

def methods : Segment → List Leaf
  | node _ _ methods _ => methods

def segments : Segment → List Segment
  | node _ _ _ segments => segments

def child? (s : Segment) (label : String) : Option Segment :=
  s.segments.find? fun c => c.label == label

end Segment

def putLeaf (leaf : Leaf) : List Leaf → List Leaf
  | [] => [leaf]
  | first :: rest =>
    if (leaf.key.order first.key).isLE then leaf :: first :: rest else first :: putLeaf leaf rest

/-- Routes by verb. Those on one level stay in the order in which they came. -/
def sortLeaves (leaves : List Leaf) : List Leaf := leaves.foldr putLeaf []

/-- Changes the node with a label, in a list that is kept in the order of labels; a fresh one is
put in its place when there is none. -/
def alterSegment (label : String) (fresh : Segment) (change : Segment → Segment) :
    List Segment → List Segment
  | [] => [change fresh]
  | first :: rest =>
    match compare label first.label with
    | .lt => change fresh :: first :: rest
    | .eq => change first :: rest
    | .gt => first :: alterSegment label fresh change rest

def Segment.push (leaf : Leaf) : List String → Segment → Segment
  | [], .node label path methods segments => .node label path (methods ++ [leaf]) segments
  | next :: labels, .node label path methods segments =>
    .node label path methods
      (alterSegment next (.node next (path ++ "/" ++ next) [] []) (push leaf labels) segments)

mutual

def Segment.sort : Segment → Segment
  | .node label path methods segments =>
    .node label path (sortLeaves methods) (Segment.sortAll segments)

def Segment.sortAll : List Segment → List Segment
  | [] => []
  | s :: rest => s.sort :: Segment.sortAll rest

end

/-- The node for routes on `/` itself. It stands beside the nodes of the first segments. -/
def rootLabel : String := "/"

structure RouteTree where
  roots : List Segment

/-- An endpoint as far as it says where its route hangs: nothing from `?` or `#` on, no blanks
at its ends, one slash in front. -/
def treePath (endpoint : String) : String :=
  let path := Text.trim (endpoint.toList.takeWhile fun c => c ≠ '?' ∧ c ≠ '#')
  String.ofList ('/' :: path.dropWhile (· = '/'))

def segmentsOf (endpoint : String) : List String :=
  ((Text.splitAt '/' endpoint.toList).filter (· ≠ [])).map String.ofList

def labelsOf (endpoint : String) : List String := segmentsOf (treePath endpoint)

namespace RouteTree

def empty : RouteTree := ⟨[]⟩

def isEmpty (t : RouteTree) : Bool := t.roots.isEmpty

def root? (t : RouteTree) (label : String) : Option Segment :=
  t.roots.find? fun s => s.label == label

def find? (t : RouteTree) : List String → Option Segment
  | [] => none
  | label :: labels => labels.foldlM Segment.child? =<< t.root? label

def push (t : RouteTree) (leaf : Leaf) : RouteTree :=
  match labelsOf leaf.key.endpoint with
  | [] => ⟨alterSegment rootLabel (.node rootLabel rootLabel [] []) (Segment.push leaf []) t.roots⟩
  | first :: labels =>
    ⟨alterSegment first (.node first ("/" ++ first) [] []) (Segment.push leaf labels) t.roots⟩

def sort (t : RouteTree) : RouteTree := ⟨Segment.sortAll t.roots⟩

def firstOfKey : List RouteKey → List Declaration → List Declaration
  | _, [] => []
  | seen, d :: rest =>
    if d.key ∈ seen then firstOfKey seen rest else d :: firstOfKey (d.key :: seen) rest

def leafOf (index : CrossReference) (calls : List Call) (d : Declaration) : Leaf where
  key := d.key
  declaration := (index.find? d.key).getD d
  calls := calls.filter fun call => call.key == d.key

def build (backend : List Declaration) (frontend : List Call) (index : CrossReference) :
    RouteTree :=
  (((firstOfKey [] backend).map (leafOf index frontend)).foldl push empty).sort

end RouteTree

mutual

def Segment.leaves : Segment → List Leaf
  | .node _ _ methods segments => methods ++ Segment.leavesOf segments

def Segment.leavesOf : List Segment → List Leaf
  | [] => []
  | s :: rest => s.leaves ++ Segment.leavesOf rest

end

def RouteTree.leaves (t : RouteTree) : List Leaf := Segment.leavesOf t.roots

end RouteTags
