import RouteTags.Tree.Basic

namespace RouteTags

inductive ItemKind where
  | segment
  | method
  | call
deriving DecidableEq, Repr

def ItemKind.name : ItemKind → String
  | segment => "segment"
  | method => "method"
  | call => "call"

inductive Item where
  | item (kind : ItemKind) (label description : String) (expandable : Bool)
      (locator : Option Locator) (children : List Item)

namespace Item

def kind : Item → ItemKind
  | item kind _ _ _ _ _ => kind

def label : Item → String
  | item _ label _ _ _ _ => label

def description : Item → String
  | item _ _ description _ _ _ => description

def expandable : Item → Bool
  | item _ _ _ expandable _ _ => expandable

def locator : Item → Option Locator
  | item _ _ _ _ locator _ => locator

def children : Item → List Item
  | item _ _ _ _ _ children => children

end Item

/-- A line as people count them, from one. In the thirty-two bits of a line the last one has no such
number: the addition overflows, and what needed it is given up. -/
def oneBased (line : UInt32) : Option UInt32 :=
  if line.toNat + 1 < UInt32.size then some (line + 1) else none

/-- A place in short: the file name, or the whole path where it ends in no name, and the line
counted from one. -/
def Locator.describe (l : Locator) : Option String :=
  let name := l.path.fileName?.getD l.path.text
  match l.line with
  | some line => (oneBased line).map fun number => name ++ ":" ++ toString number.toNat
  | none => some name

inductive RouteNode where
  | segment (s : Segment)
  | method (leaf : Leaf)
  | call (c : Call)

namespace RouteNode

def kind : RouteNode → ItemKind
  | segment _ => .segment
  | method _ => .method
  | call _ => .call

def label : RouteNode → String
  | segment s => s.label
  | method leaf => leaf.key.method
  | call c => c.key.display

def description : RouteNode → Option String
  | segment s => some s.path
  | method leaf => some leaf.key.endpoint
  | call c => c.locator.describe

def expandable : RouteNode → Bool
  | segment _ => true
  | method leaf => !leaf.calls.isEmpty
  | call _ => false

def locator : RouteNode → Option Locator
  | segment _ => none
  | method leaf => some leaf.declaration.locator
  | call c => some c.locator

def children : RouteNode → List RouteNode
  | segment s => s.methods.map method ++ s.segments.map segment
  | method leaf => leaf.calls.map call
  | call _ => []

def itemOver (n : RouteNode) (below : List Item) : Option Item :=
  n.description.map fun description =>
    .item n.kind n.label description n.expandable n.locator below

end RouteNode

def Mention.outline (c : Call) : Option Item := (RouteNode.call c).itemOver []

def Leaf.outline (leaf : Leaf) : Option Item := do
  (RouteNode.method leaf).itemOver (← leaf.calls.mapM Mention.outline)

mutual

def Segment.outline : Segment → Option Item
  | .node label path methods segments => do
    let own ← methods.mapM Leaf.outline
    let below ← Segment.outlineOf segments
    (RouteNode.segment (.node label path methods segments)).itemOver (own ++ below)

def Segment.outlineOf : List Segment → Option (List Item)
  | [] => some []
  | s :: rest => do
    let first ← s.outline
    let others ← Segment.outlineOf rest
    some (first :: others)

end

def RouteNode.outline : RouteNode → Option Item
  | segment s => s.outline
  | method leaf => leaf.outline
  | call c => c.outline

def RouteTree.outline (t : RouteTree) : Option (List Item) := Segment.outlineOf t.roots

end RouteTags
