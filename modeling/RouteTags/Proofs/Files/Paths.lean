import RouteTags.Files.Access
import RouteTags.Proofs.Files.Entries
import RouteTags.Proofs.Path.Locations
import Mathlib.Data.List.Infix

namespace RouteTags.FileTree

/-- Entries have proper names, and above each of them there are folders. -/
structure WellFormed (t : FileTree) : Prop where
  names : ∀ e ∈ t.entries, ∀ name ∈ e.1, ProperName name
  parents : ∀ e ∈ t.entries, ∀ front rest, e.1 = front ++ rest → rest ≠ [] →
    t.get? front = some .folder

instance (t : FileTree) (l : Location) : Decidable (t.get? l = some .folder) :=
  match t.get? l with
  | some .folder => isTrue rfl
  | some (.file _) => isFalse (by simp)
  | none => isFalse (by simp)

theorem wellFormed_iff (t : FileTree) : t.WellFormed ↔
    (∀ e ∈ t.entries, ∀ name ∈ e.1, ProperName name) ∧
      ∀ e ∈ t.entries, ∀ front ∈ e.1.dropLast.inits, t.get? front = some .folder := by
  constructor
  · rintro ⟨names, parents⟩
    refine ⟨names, ?_⟩
    intro e he front inside
    obtain ⟨rest, split⟩ := (List.mem_inits _ _).mp inside
    by_cases top : e.1 = []
    · rw [top] at split
      rw [(List.append_eq_nil_iff.mp split).1]
      rfl
    · refine parents e he front (rest ++ [e.1.getLast top]) ?_ (by simp)
      rw [← List.append_assoc, split, List.dropLast_concat_getLast]
  · rintro ⟨names, parents⟩
    refine ⟨names, ?_⟩
    intro e he front rest split content
    refine parents e he front ((List.mem_inits _ _).mpr ?_)
    rw [split, List.dropLast_append_of_ne_nil content]
    exact List.prefix_append front _

instance (t : FileTree) : Decidable t.WellFormed := decidable_of_iff _ t.wellFormed_iff.symm

variable {t : FileTree} {cwd l : Location} {n : Node}

theorem WellFormed.proper (wellFormed : t.WellFormed) (there : t.get? l = some n) :
    ∀ name ∈ l, ProperName name := by
  by_cases top : l = []
  · simp [top]
  · exact wellFormed.names _ (mem_entries_of_get? there top)

theorem WellFormed.proper_of_file (wellFormed : t.WellFormed) {bytes : ByteArray}
    (there : (l, bytes) ∈ t.files) : ∀ name ∈ l, ProperName name :=
  wellFormed.names _ (mem_files_iff.mp there)

theorem WellFormed.proper_below (wellFormed : t.WellFormed) {base names : Location}
    {bytes : ByteArray} (there : (base ++ names, bytes) ∈ t.files) :
    ∀ name ∈ names, ProperName name :=
  fun name h => wellFormed.proper_of_file there name (List.mem_append_right base h)

theorem WellFormed.isSome_front (wellFormed : t.WellFormed) {base names : Location}
    {bytes : ByteArray} (there : (base ++ names, bytes) ∈ t.files) :
    (t.get? base).isSome = true := by
  by_cases last : names = []
  · rw [last, List.append_nil] at there
    exact get?_of_mem_files there
  · rw [wellFormed.parents _ (mem_files_iff.mp there) base names rfl last]
    rfl

theorem foldlM_follow_names {base names : Location}
    (folders : ∀ front rest, names = front ++ rest → rest ≠ [] →
      t.get? (base ++ front) = some .folder) :
    (names.map fun name => some (Component.name name)).foldlM t.follow base =
      .ok (base ++ names) := by
  induction names generalizing base with
  | nil => simp [pure, Except.pure]
  | cons name names ih =>
    have here := folders [] (name :: names) rfl (by simp)
    rw [List.append_nil] at here
    have step : t.follow base (some (.name name)) = .ok (base ++ [name]) := by
      simp [follow, here]
    have further : ∀ front rest, names = front ++ rest → rest ≠ [] →
        t.get? (base ++ [name] ++ front) = some .folder := by
      intro front rest split content
      rw [List.append_assoc, List.singleton_append]
      exact folders (name :: front) rest (by rw [split]; rfl) content
    have later := ih further
    rw [List.append_assoc, List.singleton_append] at later
    rw [List.map_cons, List.foldlM_cons, step]
    exact later

theorem leads_from_top (wellFormed : t.WellFormed) (there : t.get? l = some n) :
    (l.map fun name => some (Component.name name)).foldlM t.follow [] = .ok l := by
  by_cases top : l = []
  · rw [top]
    rfl
  · have folders : ∀ front rest, l = front ++ rest → rest ≠ [] →
        t.get? ([] ++ front) = some .folder :=
      fun front rest => wellFormed.parents _ (mem_entries_of_get? there top) front rest
    exact foldlM_follow_names folders

theorem locate_pathOf (wellFormed : t.WellFormed) (there : t.get? l = some n) :
    t.locate cwd (pathOf l) = .ok l := by
  have absolute : (pathOf l).isAbsolute = true := by simp [Path.isAbsolute, pathOf]
  have content : (pathOf l).text.isEmpty = false := by simp [pathOf]
  have first : t.follow [] (some .root) = .ok [] := rfl
  rw [locate, content, absolute]
  by_cases top : l = []
  · rw [top]
    rfl
  · rw [Path.pieces_pathOf (wellFormed.proper there) top, List.map_cons, List.map_map]
    simp only [Bool.false_eq_true, if_false, if_true, List.foldlM_cons, first]
    exact leads_from_top wellFormed there

theorem lookup_eq_ok_iff {p : Path} :
    t.lookup cwd p = .ok (l, n) ↔ t.locate cwd p = .ok l ∧ t.get? l = some n := by
  unfold lookup
  cases t.locate cwd p with
  | error e => simp [bind, Except.bind]
  | ok m =>
    cases there : t.get? m with
    | none =>
      simp only [bind, Except.bind, there]
      constructor
      · intro h
        cases h
      · rintro ⟨same, placed⟩
        cases same
        rw [there] at placed
        cases placed
    | some o =>
      simp only [bind, Except.bind, there, pure, Except.pure, Except.ok.injEq, Prod.mk.injEq]
      constructor
      · rintro ⟨rfl, rfl⟩
        exact ⟨rfl, there⟩
      · rintro ⟨rfl, placed⟩
        exact ⟨rfl, Option.some.inj (there.symm.trans placed)⟩

/-- The resolved form of a path has no detours, if something is there. The only exception is a path
that goes on behind a file with a dot: as it is written it leads nowhere, but the file can be there,
by a detour, once it is made absolute. -/
def Straight (t : FileTree) (cwd : Location) (p : Path) : Prop :=
  ∀ l, t.locate cwd (t.resolve cwd p) = .ok l → (t.get? l).isSome = true →
    (t.resolve cwd p).components = .root :: l.map .name

theorem resolve_of_pathExists (wellFormed : t.WellFormed) {p : Path}
    (there : t.pathExists cwd p = true) (leads : t.locate cwd (t.resolve cwd p) = .ok l) :
    t.resolve cwd p = pathOf l := by
  unfold pathExists at there
  cases found : t.lookup cwd p with
  | error e =>
    rw [found] at there
    cases there
  | ok result =>
    obtain ⟨m, n⟩ := result
    have direct : t.resolve cwd p = pathOf m := by rw [resolve, found]
    obtain ⟨-, placed⟩ := lookup_eq_ok_iff.mp found
    rw [direct, locate_pathOf wellFormed placed] at leads
    rw [direct, Except.ok.inj leads]

theorem straight_of_pathExists (wellFormed : t.WellFormed) {p : Path}
    (there : t.pathExists cwd p = true) : t.Straight cwd p := by
  intro l leads placed
  obtain ⟨n, placed⟩ := Option.isSome_iff_exists.mp placed
  rw [resolve_of_pathExists wellFormed there leads,
    Path.components_pathOf (wellFormed.proper placed)]

end RouteTags.FileTree
