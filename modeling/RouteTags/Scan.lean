import RouteTags.Config.Basic
import RouteTags.Proofs.Path.Order
import RouteTags.Selection.Discovery
import RouteTags.Tag.Extract

/-!
Scanning. Each folder is searched for either side, and what the searches find is kept together by
the path on which it was reached. What stands at each such path is then read once, in path order,
and gives the mentions of the sides that found it; a file that is no text is skipped.
-/
namespace RouteTags

structure Scan where
  backend : List Declaration
  frontend : List Call
  scanned : Nat
  skipped : Nat
deriving DecidableEq, Repr

structure Selected where
  path : Path
  bytes : ByteArray
  backend : Bool
  frontend : Bool

namespace Selected

def unmarked (p : Path) (bytes : ByteArray) : Selected := ⟨p, bytes, false, false⟩

def mark (kind : TagKind) (f : Selected) : Selected :=
  match kind with
  | .backend => { f with backend := true }
  | .frontend => { f with frontend := true }

/-- Marks a file among others. One that is not there yet gets its place; one that is there keeps the
spelling of its path. -/
def markIn (kind : TagKind) (p : Path) (bytes : ByteArray) : List Selected → List Selected
  | [] => [(unmarked p bytes).mark kind]
  | f :: rest =>
    match p.order f.path with
    | .lt => (unmarked p bytes).mark kind :: f :: rest
    | .eq => f.mark kind :: rest
    | .gt => f :: markIn kind p bytes rest

@[simp] theorem path_mark (kind : TagKind) (f : Selected) : (f.mark kind).path = f.path := by
  cases kind <;> rfl

theorem path_of_mem_markIn {kind : TagKind} {p : Path} {bytes : ByteArray} {f : Selected}
    {files : List Selected} (h : f ∈ markIn kind p bytes files) :
    f.path = p ∨ ∃ g ∈ files, g.path = f.path := by
  induction files with
  | nil => exact .inl (by simp_all [markIn, unmarked])
  | cons first rest ih =>
    unfold markIn at h
    split at h
    · rcases List.mem_cons.mp h with rfl | h
      · exact .inl (by simp [unmarked])
      · exact .inr ⟨f, h, rfl⟩
    · rcases List.mem_cons.mp h with rfl | h
      · exact .inr ⟨first, List.mem_cons_self, by simp⟩
      · exact .inr ⟨f, List.mem_cons_of_mem _ h, rfl⟩
    · rcases List.mem_cons.mp h with rfl | h
      · exact .inr ⟨f, List.mem_cons_self, rfl⟩
      · rcases ih h with h | ⟨g, hg, same⟩
        · exact .inl h
        · exact .inr ⟨g, List.mem_cons_of_mem _ hg, same⟩

theorem markIn_ascending (kind : TagKind) (p : Path) (bytes : ByteArray) {files : List Selected}
    (h : files.Pairwise fun a b => a.path.order b.path = .lt) :
    (markIn kind p bytes files).Pairwise fun a b => a.path.order b.path = .lt := by
  induction files with
  | nil => simp [markIn]
  | cons first rest ih =>
    obtain ⟨least, ascending⟩ := List.pairwise_cons.mp h
    unfold markIn
    split
    · rename_i lower
      refine List.pairwise_cons.mpr ⟨?_, h⟩
      intro f hf
      rw [path_mark]
      rcases List.mem_cons.mp hf with rfl | hf
      · exact lower
      · exact Std.TransCmp.lt_trans lower (least f hf)
    · refine List.pairwise_cons.mpr ⟨?_, ascending⟩
      intro f hf
      rw [path_mark]
      exact least f hf
    · rename_i higher
      refine List.pairwise_cons.mpr ⟨?_, ih ascending⟩
      intro f hf
      rcases path_of_mem_markIn hf with here | ⟨g, hg, same⟩
      · rw [here]
        exact Std.OrientedCmp.lt_of_gt higher
      · rw [← same]
        exact least g hg

end Selected

structure Selection where
  files : List Selected
  ascending : files.Pairwise fun a b => a.path.order b.path = .lt

namespace Selection

def empty : Selection := ⟨[], .nil⟩

def mark (s : Selection) (kind : TagKind) (file : Path × ByteArray) : Selection :=
  ⟨Selected.markIn kind file.1 file.2 s.files, Selected.markIn_ascending kind _ _ s.ascending⟩

def markAll (s : Selection) (kind : TagKind) (found : List (Path × ByteArray)) : Selection :=
  found.foldl (fun s file => s.mark kind file) s

end Selection

structure Scanner where
  excludes : List String := []

namespace Scanner

def discovery (s : Scanner) (side : Side) : Discovery :=
  (Discovery.ofSide side).excluding s.excludes

def fault? (s : Scanner) (folders : List Path) (c : Config) : Option GlobFault :=
  if folders.isEmpty then none
  else (s.discovery c.backend).fault? <|> (s.discovery c.frontend).fault?

/-- The files that either side finds below one of the roots, given with where they lead. -/
def selected (s : Scanner) (t : FileTree) (roots : List (Path × Location)) (c : Config) :
    Selection :=
  let backend := (s.discovery c.backend).search t
  let frontend := (s.discovery c.frontend).search t
  roots.foldl (fun found (root, base) =>
    (found.markAll .backend (backend.reach t root base)).markAll .frontend
      (frontend.reach t root base)) .empty

end Scanner

namespace Scan

def empty : Scan := ⟨[], [], 0, 0⟩

def add (scan : Scan) (f : Selected) : Scan :=
  match String.fromUTF8? f.bytes with
  | none => { scan with skipped := scan.skipped + 1 }
  | some text =>
    let found := Tag.extract f.path text f.backend f.frontend
    ⟨scan.backend ++ found.backend, scan.frontend ++ found.frontend, scan.scanned + 1,
      scan.skipped⟩

def ofFiles (files : List Selected) : Scan := files.foldl add empty

end Scan

def FileTree.roots (t : FileTree) (cwd : Location) (folders : List Path) :
    List (Path × Location) :=
  folders.filterMap fun folder =>
    let root := t.resolve cwd folder
    (t.locate cwd root).toOption.map fun base => (root, base)

namespace Scanner

def scan (s : Scanner) (t : FileTree) (cwd : Location) (folders : List Path) (c : Config) : Scan :=
  .ofFiles (s.selected t (t.roots cwd folders) c).files

def outcome (s : Scanner) (t : FileTree) (cwd : Location) (folders : List Path) (c : Config) :
    Except GlobFault Scan :=
  match s.fault? folders c with
  | some fault => .error fault
  | none => .ok (s.scan t cwd folders c)

end Scanner

end RouteTags
