import RouteTags.Text.Search

/-!
Paths. A path is a text that is kept as it was written; what it means is its list of
components. Two spellings with the same components are the same path, and paths are ordered by
component, not by character.
-/
namespace RouteTags

/-- One step of a path. A leading `.` of a relative path counts, a later one does not. -/
inductive Component where
  | root
  | here
  | up
  | name (text : String)
deriving DecidableEq, Repr

namespace Component

def rank : Component → Nat
  | root => 0
  | here => 1
  | up => 2
  | name _ => 3

def order (a b : Component) : Ordering :=
  match a, b with
  | name s, name t => compare s t
  | a, b => compare a.rank b.rank

end Component

structure Path where
  text : String
deriving DecidableEq, Repr

namespace Path

abbrev Piece := Option Component × List Char

def inner (piece : List Char) : Piece :=
  if piece = [] ∨ piece = ['.'] then (none, piece)
  else if piece = ['.', '.'] then (some .up, piece)
  else (some (.name (String.ofList piece)), piece)

/-- The pieces of a path. The empty piece before a leading slash is the root, and a leading `.`
stands for itself. -/
def pieces (p : Path) : List Piece :=
  match Text.splitAt '/' p.text.toList with
  | [] => []
  | [] :: [] => [(none, [])]
  | [] :: rest => (some .root, []) :: rest.map inner
  | ['.'] :: rest => (some .here, ['.']) :: rest.map inner
  | pieces => pieces.map inner

def components (p : Path) : List Component := p.pieces.filterMap (·.1)

def same (p q : Path) : Bool := p.components == q.components

def orderComponents : List Component → List Component → Ordering
  | [], [] => .eq
  | [], _ :: _ => .lt
  | _ :: _, [] => .gt
  | a :: as, b :: bs => (a.order b).then (orderComponents as bs)

def order (p q : Path) : Ordering := orderComponents p.components q.components

def isAbsolute (p : Path) : Bool := p.text.toList.head? == some '/'

/-- One path inside another: a slash is put between them unless one is there, and an absolute
path stands for itself. -/
def join (p q : Path) : Path :=
  if q.isAbsolute then q
  else if p.text.isEmpty || p.text.toList.getLast? == some '/' then ⟨p.text ++ q.text⟩
  else ⟨p.text ++ "/" ++ q.text⟩

def dropComponents : List Component → List Piece → Option (List Piece)
  | [], rest => some rest
  | _ :: _, [] => none
  | c :: cs, (none, _) :: rest => dropComponents (c :: cs) rest
  | c :: cs, (some d, _) :: rest => if c = d then dropComponents cs rest else none

def trimPieces (ps : List Piece) : List Piece :=
  (ps.reverse.dropWhile (·.1.isNone)).reverse

def ofPieces : List Piece → Path
  | [(some .root, _)] => ⟨"/"⟩
  | ps => ⟨String.ofList (Text.joinWith '/' (ps.map (·.2)))⟩

/-- What is left of the path below `base`, as it was written, less empty pieces and `.` at
either end; nothing when the path does not lie below `base`. -/
def below? (p base : Path) : Option Path :=
  match base.components with
  | [] => some (ofPieces (trimPieces p.pieces))
  | cs => (dropComponents cs p.pieces).map fun rest =>
      ofPieces (trimPieces (rest.dropWhile (·.1.isNone)))

def fileName? (p : Path) : Option String :=
  match p.components.getLast? with
  | some (.name s) => some s
  | _ => none

def extension? (p : Path) : Option String :=
  p.fileName?.bind fun name =>
    let backwards := name.toList.reverse
    match backwards.dropWhile (· ≠ '.') with
    | [] => none
    | [_] => none
    | _ => some (String.ofList (backwards.takeWhile (· ≠ '.')).reverse)

def ofNames (names : List String) : Path := ⟨String.intercalate "/" names⟩

end Path

end RouteTags
