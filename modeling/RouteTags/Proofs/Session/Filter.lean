import RouteTags.Proofs.Scan.Canonical
import RouteTags.Session

/-! Calls filtered by a side after a scan, and calls of a scan for that side. The walk looks at the
names below the root, the filter at the path below the resolved root, and these are one text. -/
namespace RouteTags

namespace Includes

theorem admits_of_free {free : Side} (unrestricted : free.patterns = []) (text : String) :
    (ofSide free).admits text = true := by
  simp [admits, ofSide, ofPatterns, unrestricted]

theorem selects_single {i : Includes} {root p relative : Path}
    (below : p.below? root = some relative) : i.selects [root] p = i.admits relative.text := by
  simp [selects, admits, below]

theorem selects_of_admits {i : Includes} {roots : List Path} {root p relative : Path}
    (member : root ∈ roots) (below : p.below? root = some relative)
    (admitted : i.admits relative.text = true) : i.selects roots p = true := by
  rw [admits, Bool.or_eq_true] at admitted
  rw [selects, Bool.or_eq_true, List.any_eq_true]
  refine admitted.imp_right fun accepted => ⟨root, member, ?_⟩
  rw [below]
  exact accepted

end Includes

namespace Scanner

variable {s : Scanner} {t : FileTree} {cwd : Location} {folders : List Path} {side free : Side}

theorem finds_iff_free (unrestricted : free.patterns = []) {root l : Location}
    {bytes : ByteArray} :
    ((s.discovery side).search t).finds root l bytes = true ↔
      ((s.discovery free).search t).finds root l bytes = true ∧
        ∃ names, l = root ++ names ∧
          (Includes.ofSide side).admits (String.intercalate "/" names) = true := by
  unfold Discovery.Search.finds
  cases h : FileTree.below? root l with
  | none => simp
  | some names =>
    obtain rfl := FileTree.below?_eq_some_iff.mp h
    have sideRules : ((s.discovery side).search t).includes = .ofSide side := rfl
    have freeRules : ((s.discovery free).search t).includes = .ofSide free := rfl
    have size : ((s.discovery side).search t).withinSize bytes =
        ((s.discovery free).search t).withinSize bytes := rfl
    have excludes : ((s.discovery side).search t).excludes =
        ((s.discovery free).search t).excludes := rfl
    have passed : ((s.discovery side).search t).passed =
        ((s.discovery free).search t).passed := rfl
    simp only [Discovery.Search.admits, sideRules, freeRules, size, excludes, passed,
      Includes.admits_of_free unrestricted, Bool.and_eq_true, List.append_cancel_left_eq,
      exists_eq_left', and_true]
    constructor
    · rintro ⟨⟨⟨small, admitted⟩, kept⟩, reached⟩
      exact ⟨⟨⟨small, kept⟩, reached⟩, admitted⟩
    · rintro ⟨⟨⟨small, kept⟩, reached⟩, admitted⟩
      exact ⟨⟨⟨small, admitted⟩, kept⟩, reached⟩

theorem below?_of_reached (wellFormed : t.WellFormed) {folder : Path} {base names : Location}
    {bytes : ByteArray} (leads : t.locate cwd (t.resolve cwd folder) = .ok base)
    (there : (base ++ names, bytes) ∈ t.files) :
    (Discovery.pathFrom (t.resolve cwd folder) base (base ++ names)).below? (t.resolve cwd folder) =
      some (.ofNames names) :=
  Discovery.below?_pathFrom (FileTree.components_resolve leads) (wellFormed.proper_below there)

theorem selects_single_iff (wellFormed : t.WellFormed) {folder : Path}
    (unrestricted : free.patterns = []) (file : Path × ByteArray) :
    s.Selects t cwd [folder] side file ↔ s.Selects t cwd [folder] free file ∧
      (Includes.ofSide side).selects [t.resolve cwd folder] file.1 = true := by
  obtain ⟨p, bytes⟩ := file
  simp only [Selects, List.mem_singleton, exists_eq_left, mem_reach_iff, mem_select_iff]
  constructor
  · rintro ⟨base, leads, names, ⟨there, found⟩, rfl⟩
    obtain ⟨free, names', split, admitted⟩ := (finds_iff_free unrestricted).mp found
    obtain rfl := List.append_cancel_left split
    refine ⟨⟨base, leads, names, ⟨there, free⟩, rfl⟩, ?_⟩
    rw [Includes.selects_single (below?_of_reached wellFormed leads there)]
    exact admitted
  · rintro ⟨⟨base, leads, names, ⟨there, found⟩, rfl⟩, selected⟩
    rw [Includes.selects_single (below?_of_reached wellFormed leads there)] at selected
    exact ⟨base, leads, names, ⟨there, (finds_iff_free unrestricted).mpr
      ⟨found, names, rfl, selected⟩⟩, rfl⟩

theorem tight_of_selects (wellFormed : t.WellFormed) (home : ∀ name ∈ cwd, ProperName name)
    {file : Path × ByteArray} (selected : s.Selects t cwd folders side file) :
    ∃ own, file.1.Tight own := by
  obtain ⟨folder, -, base, names, leads, -, there, path⟩ := exists_of_selects selected
  obtain ⟨own, tight⟩ := FileTree.tight_resolve wellFormed home leads
  rw [path]
  exact Discovery.exists_tight_pathFrom tight (wellFormed.proper_below there)

theorem selects_by_path (wellFormed : t.WellFormed) {file : Path × ByteArray} {p : Path}
    {own : List String} (selected : s.Selects t cwd folders side file) (tight : p.Tight own)
    (same : p.components = file.1.components) :
    (Includes.ofSide side).selects (folders.map (t.resolve cwd)) p = true := by
  obtain ⟨folder, listed, base, names, leads, found, there, path⟩ := exists_of_selects selected
  have unrestricted : Side.everything.patterns = [] := rfl
  obtain ⟨-, names', split, admitted⟩ :=
    (finds_iff_free unrestricted).mp (mem_select_iff.mp found).2
  obtain rfl := List.append_cancel_left split
  have proper := wellFormed.proper_below there
  have whole : p.components = (t.resolve cwd folder).components ++ names.map .name := by
    rw [same, path, Discovery.components_pathFrom proper]
  exact Includes.selects_of_admits (List.mem_map_of_mem listed)
    (tight.below? (FileTree.components_resolve leads) whole) admitted

theorem path_unique (wellFormed : t.WellFormed) {folder : Path} {side' : Side}
    {file other : Path × ByteArray} (one : s.Selects t cwd [folder] side file)
    (two : s.Selects t cwd [folder] side' other)
    (same : file.1.components = other.1.components) : file.1 = other.1 := by
  obtain ⟨_, listed, base, names, leads, -, there, path⟩ := exists_of_selects one
  obtain ⟨_, listed', base', names', leads', -, there', path'⟩ := exists_of_selects two
  obtain rfl := List.mem_singleton.mp listed
  obtain rfl := List.mem_singleton.mp listed'
  obtain rfl := Except.ok.inj (leads.symm.trans leads')
  rw [path, path', Discovery.components_pathFrom (wellFormed.proper_below there),
    Discovery.components_pathFrom (wellFormed.proper_below there')] at same
  have names_eq : names = names' :=
    List.map_injective_iff.mpr (fun _ _ => Component.name.inj) (List.append_cancel_left same)
  rw [path, path', names_eq]

theorem usable_iff_free (unrestricted : free.patterns = []) :
    (s.discovery side).Usable ↔
      (s.discovery free).Usable ∧ (Includes.ofSide side).fault? = none := by
  have excluded : (s.discovery side).excluded = (s.discovery free).excluded := rfl
  have includes : (s.discovery side).includes = side.patterns := rfl
  have none : Globs.Usable (.ofTexts (s.discovery free).includes) := by
    have patterns : (s.discovery free).includes = free.patterns := rfl
    rw [patterns, unrestricted]
    intro g hg
    cases hg
  rw [Discovery.Usable, Discovery.Usable, excluded, includes, and_iff_left none]
  exact and_congr_right fun _ => Globs.fault?_eq_none_iff.symm

end Scanner

namespace Session

variable {t : FileTree} {cwd : Location}

theorem rescan_eq_ok_iff {s after : Session} {folders : List Path} {c : Config} :
    s.rescan t cwd folders c = .ok after ↔ s.scanner.fault? folders c = none ∧
      s.publish (folders.map (t.resolve cwd)) (s.scanner.scan t cwd folders c) = after := by
  unfold rescan Scanner.outcome
  cases s.scanner.fault? folders c with
  | some fault => simp
  | none => simp

theorem calls_of_usable {s : Session} {side : Side} (usable : (Includes.ofSide side).fault? = none) :
    s.calls (some side) = .ok (s.snapshot.frontend.filter fun call =>
      (Includes.ofSide side).selects s.snapshot.folders call.file) := by
  rw [calls, Option.bind_some, usable]
  rfl

theorem mem_listing_iff (wellFormed : t.WellFormed) {s : Scanner} {folder : Path} {c : Config}
    {kind : TagKind} {files : List (Path × ByteArray)}
    (listing : Listing files fun file =>
      s.Selects t cwd [folder] (c.side kind) file ∧ isText file = true)
    (spelled : ∀ file ∈ files, ∃ k, s.Selects t cwd [folder] (c.side k) file)
    {file : Path × ByteArray} :
    file ∈ files ↔ s.Selects t cwd [folder] (c.side kind) file ∧ isText file = true := by
  refine listing.mem_iff ?_
  rintro file member other ⟨known, -⟩ same
  obtain ⟨k, found⟩ := spelled file member
  obtain ⟨components, bytes⟩ := Prod.mk.inj same
  exact Prod.ext (Scanner.path_unique wellFormed known found components) bytes

/-- Filtering the calls after a scan is scanning with the filter. For one folder, the calls that a
side selects after a scan without rules are those of a scan for that side; for any folders, a scan
loses no call when it is filtered by its own side. -/
theorem filter_eq_rescan (wellFormed : t.WellFormed) (cwd : Location) :
    (∀ (s s' : Session) folder side free backend after, s'.scanner = s.scanner →
      free.patterns = [] → s.rescan t cwd [folder] ⟨side, backend⟩ = .ok after →
      ∃ unfiltered, s'.rescan t cwd [folder] ⟨free, backend⟩ = .ok unfiltered ∧
        unfiltered.calls (some side) = after.calls none) ∧
    (∀ (s : Session) folders c after, (∀ name ∈ cwd, ProperName name) →
      (Includes.ofSide c.frontend).fault? = none → s.rescan t cwd folders c = .ok after →
      after.calls (some c.frontend) = after.calls none) := by
  constructor
  · rintro s s' folder side free backend _ same unrestricted done
    obtain ⟨sound, rfl⟩ := rescan_eq_ok_iff.mp done
    have usable := (Scanner.fault?_eq_none_iff.mp sound).resolve_left (by simp)
    obtain ⟨usableFree, usableSide⟩ :=
      (Scanner.usable_iff_free unrestricted).mp (usable .frontend)
    have soundFree : s'.scanner.fault? [folder] ⟨free, backend⟩ = none := by
      apply Scanner.fault?_eq_none_iff.mpr
      right
      intro kind
      rw [same]
      cases kind with
      | backend => exact usable .backend
      | frontend => exact usableFree
    refine ⟨_, rescan_eq_ok_iff.mpr ⟨soundFree, rfl⟩, ?_⟩
    obtain ⟨files, listing, spelled, mentioned⟩ :=
      s.scanner.mentions_scan wellFormed cwd [folder] ⟨side, backend⟩ .frontend
    obtain ⟨others, listingFree, spelledFree, mentionedFree⟩ :=
      s.scanner.mentions_scan wellFormed cwd [folder] ⟨free, backend⟩ .frontend
    let selected := fun file : Path × ByteArray =>
      (Includes.ofSide side).selects [t.resolve cwd folder] file.1
    have kept : others.filter selected = files := by
      -- Both lists are in path order, so it is enough that they hold the same files.
      refine eq_of_ascending (listingFree.ascending.filter selected) listing.ascending ?_
      intro file
      have found : s.scanner.Selects t cwd [folder] side file ↔ _ :=
        Scanner.selects_single_iff wellFormed unrestricted file
      have own : file ∈ files ↔ s.scanner.Selects t cwd [folder] side file ∧ isText file = true :=
        mem_listing_iff wellFormed listing spelled
      have wide : file ∈ others ↔ s.scanner.Selects t cwd [folder] free file ∧ isText file = true :=
        mem_listing_iff wellFormed listingFree spelledFree
      rw [List.mem_filter, own, wide, found, and_right_comm]
    have wide : (s'.scanner.scan t cwd [folder] ⟨free, backend⟩).frontend =
        others.flatMap (mentionsIn .frontend) := by
      rw [same]
      exact mentionedFree
    refine (calls_of_usable usableSide).trans (congrArg Except.ok ?_)
    calc (s'.scanner.scan t cwd [folder] ⟨free, backend⟩).frontend.filter
          (fun call => (Includes.ofSide side).selects [t.resolve cwd folder] call.file)
        = files.flatMap (mentionsIn .frontend) := by rw [wide, filter_mentions, kept]
      _ = (s.scanner.scan t cwd [folder] ⟨side, backend⟩).frontend := mentioned.symm
  · rintro s folders c _ home usable done
    obtain ⟨-, rfl⟩ := rescan_eq_ok_iff.mp done
    obtain ⟨files, listing, spelled, mentioned⟩ :=
      s.scanner.mentions_scan wellFormed cwd folders c .frontend
    rw [calls_of_usable usable]
    apply congrArg Except.ok
    apply List.filter_eq_self.mpr
    intro call member
    have mentions : call ∈ files.flatMap (mentionsIn .frontend) := mentioned ▸ member
    obtain ⟨file, listed, here⟩ := List.mem_flatMap.mp mentions
    -- The other side may have found the file first, in a spelling of its own.
    obtain ⟨other, ⟨selected, -⟩, same⟩ := listing.exists_wanted listed
    obtain ⟨_, spelling⟩ := spelled file listed
    obtain ⟨own, tight⟩ := Scanner.tight_of_selects wellFormed home spelling
    rw [mentions_of_file here]
    exact Scanner.selects_by_path wellFormed selected tight (congrArg (·.1) same).symm

def clientTree : FileTree where
  entries := [(["ws"], .folder),
    (["ws", "b.ts"], .file "// ENDPOINTER <frontend> method: \"GET\", endpoint: \"/b\"".toUTF8),
    (["ws", "client"], .folder),
    (["ws", "client", "a.ts"],
      .file "// ENDPOINTER <frontend> method: \"GET\", endpoint: \"/a\"".toUTF8)]
  ascending := by decide +kernel

theorem filter_eq_rescan_client :
    ∃ after unfiltered, (start {} .standard).rescan clientTree [] [⟨"/ws"⟩]
        ⟨⟨["./client/"], []⟩, .everything⟩ = .ok after ∧
      (start {} .standard).rescan clientTree [] [⟨"/ws"⟩] .everything = .ok unfiltered ∧
      unfiltered.calls (some ⟨["./client/"], []⟩) = after.calls none ∧
      after.calls (some ⟨["./client/"], []⟩) = after.calls none ∧
      after.snapshot.frontend.map (·.file) = [⟨"/ws/client/a.ts"⟩] ∧
      unfiltered.snapshot.frontend.length = 2 := by
  have wellFormed : clientTree.WellFormed := by decide +kernel
  have done : (start {} .standard).rescan clientTree [] [⟨"/ws"⟩]
      ⟨⟨["./client/"], []⟩, .everything⟩ = .ok _ := rescan_eq_ok_iff.mpr ⟨by decide +kernel, rfl⟩
  obtain ⟨unfiltered, all, same⟩ := (filter_eq_rescan wellFormed []).1 (start {} .standard)
    (start {} .standard) ⟨"/ws"⟩ ⟨["./client/"], []⟩ .everything .everything _ rfl rfl done
  have own := (filter_eq_rescan wellFormed []).2 (start {} .standard) [⟨"/ws"⟩]
    ⟨⟨["./client/"], []⟩, .everything⟩ _ (by simp) (by decide +kernel) done
  refine ⟨_, unfiltered, done, all, same, own, by decide +kernel, ?_⟩
  obtain ⟨-, rfl⟩ := rescan_eq_ok_iff.mp all
  decide +kernel

end Session

end RouteTags
