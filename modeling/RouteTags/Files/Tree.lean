import RouteTags.Path

/-!
A tree of files. A location is the list of names from the top; the tree holds what is at each
location, in ascending order, so that a listing of any part of it comes out in path order.
-/
namespace RouteTags

/-- The names from the top of the tree. The top itself is always a folder. -/
abbrev Location := List String

inductive Node where
  | folder
  | file (bytes : ByteArray)

structure FileTree where
  entries : List (Location × Node)
  ascending : entries.Pairwise fun a b => compare a.1 b.1 = .lt

namespace FileTree

def empty : FileTree := ⟨[], .nil⟩

def get? (t : FileTree) : Location → Option Node
  | [] => some .folder
  | location => t.entries.lookup location

def insertEntry (l : Location) (n : Node) : List (Location × Node) → List (Location × Node)
  | [] => [(l, n)]
  | (k, m) :: rest =>
    match compare l k with
    | .lt => (l, n) :: (k, m) :: rest
    | .eq => (l, n) :: rest
    | .gt => (k, m) :: insertEntry l n rest

theorem mem_insertEntry {l : Location} {n : Node} {e : Location × Node}
    {entries : List (Location × Node)} (h : e ∈ insertEntry l n entries) :
    e = (l, n) ∨ e ∈ entries := by
  induction entries with
  | nil => simpa [insertEntry] using h
  | cons first rest ih =>
    simp only [insertEntry] at h
    split at h
    · simpa using h
    · rcases List.mem_cons.mp h with h | h
      · exact .inl h
      · exact .inr (List.mem_cons_of_mem _ h)
    · rcases List.mem_cons.mp h with h | h
      · exact .inr (by simp [h])
      · rcases ih h with h | h
        · exact .inl h
        · exact .inr (List.mem_cons_of_mem _ h)

theorem insertEntry_ascending (l : Location) (n : Node) {entries : List (Location × Node)}
    (h : entries.Pairwise fun a b => compare a.1 b.1 = .lt) :
    (insertEntry l n entries).Pairwise fun a b => compare a.1 b.1 = .lt := by
  induction entries with
  | nil => simp [insertEntry]
  | cons first rest ih =>
    obtain ⟨k, m⟩ := first
    obtain ⟨hk, hr⟩ := List.pairwise_cons.mp h
    simp only [insertEntry]
    split
    · rename_i hl
      refine List.pairwise_cons.mpr ⟨fun e he => ?_, h⟩
      rcases List.mem_cons.mp he with he | he
      · exact he ▸ hl
      · exact Std.TransCmp.lt_trans hl (hk e he)
    · rename_i hl
      have : l = k := Std.LawfulEqCmp.eq_of_compare hl
      exact List.pairwise_cons.mpr ⟨fun e he => this ▸ hk e he, hr⟩
    · rename_i hl
      refine List.pairwise_cons.mpr ⟨fun e he => ?_, ih hr⟩
      rcases mem_insertEntry he with he | he
      · exact he ▸ Std.OrientedCmp.lt_of_gt hl
      · exact hk e he

def insert (t : FileTree) (l : Location) (n : Node) : FileTree :=
  ⟨insertEntry l n t.entries, insertEntry_ascending l n t.ascending⟩

def erase (t : FileTree) (l : Location) : FileTree :=
  ⟨t.entries.filter fun e => !l.isPrefixOf e.1, t.ascending.filter _⟩

def ofEntries (entries : List (Location × Node)) : FileTree :=
  (entries.mergeSort fun a b => (compare a.1 b.1).isLE).foldr (fun e t => t.insert e.1 e.2) empty

def files (t : FileTree) : List (Location × ByteArray) :=
  t.entries.filterMap fun (l, n) =>
    match n with
    | .file bytes => some (l, bytes)
    | .folder => none

/-- What follows the names of `base` in a location that begins with them. -/
def below? : Location → Location → Option (List String)
  | [], rest => some rest
  | _ :: _, [] => none
  | a :: base, b :: rest => if a = b then below? base rest else none

def pathOf (l : Location) : Path := ⟨"/" ++ String.intercalate "/" l⟩

end FileTree

end RouteTags
