import RouteTags.Proofs.Coverage.Agreement
import RouteTags.Proofs.Selection.Entries
import RouteTags.Proofs.Selection.Excluded

/-! Folders that a check leaves out. An entry of an include list is straightened before it becomes a
glob; an entry for a folder that a check leaves out only loses the slashes at its ends. So the same
spelling can name a folder in the one place and none, or another, in the other. -/
namespace RouteTags

namespace Checker

/-- The glob of an entry stands for the folder: less its backslashes and the slashes at its ends,
the entry is the folder. -/
def Spells (entry folder : String) : Prop :=
  Glob.unescaped (Side.trimSlashes entry.toList ++ ['/']) = folder.toList ++ ['/']

instance (entry folder : String) : Decidable (Spells entry folder) :=
  inferInstanceAs (Decidable (_ = _))

theorem countP_front {entry : String} {front : List Char}
    (means : Glob.unescaped (Side.trimSlashes entry.toList ++ ['/']) = front ++ ['/']) :
    front.countP Side.isLetter = entry.toList.countP Side.isLetter := by
  have counted := congrArg (List.countP Side.isLetter) means
  rw [Glob.countP_unescaped (by decide), List.countP_append, List.countP_append,
    Side.countP_trimSlashes] at counted
  exact (Nat.add_right_cancel counted).symm

theorem intercalate_ne_empty {names : List String} (proper : ∀ name ∈ names, ProperName name)
    (content : names ≠ []) : String.intercalate "/" names ≠ "" := by
  intro empty
  have pieces := Text.splitAt_intercalate (fun name h => (proper name h).slashless) content
  have listed : [] ∈ names.map String.toList := by
    rw [← pieces, empty]
    exact List.mem_cons_self
  obtain ⟨name, member, none⟩ := List.mem_map.mp listed
  exact (proper name member).nonempty none

/-- The folder of an entry lies below no other that the glob of the entry stands for: it would have
more letters than the entry. -/
theorem not_above {entry : String} {names : List String} (proper : ∀ name ∈ names, ProperName name)
    (content : names ≠ [])
    (effective : Side.folder? entry = some (String.intercalate "/" names)) {front : List Char}
    (means : Glob.unescaped (Side.trimSlashes entry.toList ++ ['/']) = front ++ ['/']) :
    ¬ front ++ ['/'] <+: (String.intercalate "/" names).toList := by
  rintro ⟨more, whole⟩
  rw [List.append_assoc, List.singleton_append] at whole
  have pieces := Text.splitAt_intercalate (fun name h => (proper name h).slashless) content
  have nonempty : [] ∉ Text.splitAt '/' more := by
    intro empty
    have listed : [] ∈ names.map String.toList := by
      rw [← pieces, ← whole, Text.splitAt_append_cons]
      exact List.mem_append_right _ empty
    obtain ⟨name, member, none⟩ := List.mem_map.mp listed
    exact (proper name member).nonempty none
  have letters := Side.countP_folder?_le effective (intercalate_ne_empty proper content)
  rw [← whole, ← countP_front means, List.countP_append] at letters
  cases more with
  | nil => exact nonempty (by simp [Text.splitAt])
  | cons c more =>
    have slash : c ≠ '/' := by
      rintro rfl
      have cut := Text.splitAt_append_cons '/' [] more
      exact nonempty (cut ▸ List.mem_append_left _ List.mem_cons_self)
    have backslash : c ≠ '\\' := by
      rintro rfl
      refine Side.not_backslash_of_folder? effective ?_
      rw [← whole]
      simp
    have letter : Side.isLetter c = true := by simp [Side.isLetter, slash, backslash]
    simp only [List.countP_cons, letter, if_true] at letters
    omega

theorem spells_of_direct {entry : String} {names : List String}
    (proper : ∀ name ∈ names, ProperName name) (content : names ≠ [])
    (effective : Side.folder? entry = some (String.intercalate "/" names)) {front : List Char}
    (means : Glob.unescaped (Side.trimSlashes entry.toList ++ ['/']) = front ++ ['/'])
    {name : String} (slashless : '/' ∉ name.toList)
    (inside : front ++ ['/'] <+: (String.intercalate "/" (names ++ [name])).toList) :
    Spells entry (String.intercalate "/" names) := by
  have slashlessNames : ∀ n ∈ names, '/' ∉ n.toList := fun n h => (proper n h).slashless
  have pieces : Text.splitAt '/' (String.intercalate "/" (names ++ [name])).toList =
      Text.splitAt '/' (String.intercalate "/" names).toList ++ [name.toList] := by
    rw [Text.splitAt_intercalate slashlessNames content, Text.splitAt_intercalate _ (by simp),
      List.map_append]
    · rfl
    · intro n h
      rcases List.mem_append.mp h with h | h
      · exact slashlessNames n h
      · rwa [List.mem_singleton.mp h]
  rw [Text.append_sep_prefix_iff, pieces] at inside
  obtain ⟨above, other⟩ := inside
  rcases List.prefix_concat_iff.mp above with whole | above
  · exact absurd whole other
  · by_cases same : Text.splitAt '/' front = Text.splitAt '/' (String.intercalate "/" names).toList
    · have equal := congrArg (Text.joinWith '/') same
      rw [Text.joinWith_splitAt, Text.joinWith_splitAt] at equal
      rw [Spells, means, equal]
    · exact absurd (Text.append_sep_prefix_iff.mpr ⟨above, same⟩)
        (not_above proper content effective means)

def leavingOut (c : Checker) (entry : String) : Checker :=
  { c with excludedFolders := c.excludedFolders ++ [entry] }

theorem excludeGlob_eq (entry : String) :
    excludeGlob entry = String.ofList (Side.trimSlashes entry.toList ++ ['/', '*', '*']) := by
  apply String.toList_injective
  simp [excludeGlob]

def under (front : List Char) : Glob := ⟨false, Token.literally front ++ [.deepLast]⟩

theorem form_under (front : List Char) : (under front).form = .front := by
  have isFront : Glob.isFront false (Token.literally front ++ [.deepLast]) = true := by
    simp [Glob.isFront, Glob.isPlain, Token.literally, Token.isPlain]
  have notPlain : Glob.isPlain (Token.literally front ++ [.deepLast]) = false := by
    simp [Glob.isPlain, Token.isPlain]
  have rest : Glob.isName (Token.literally front ++ [.deepLast]) = false ∧
      Glob.isExtension false (Token.literally front ++ [.deepLast]) = false := by
    rw [Token.literally]
    cases Text.encode front <;> exact ⟨rfl, rfl⟩
  simp [under, Glob.form, isFront, notPlain, rest]

theorem fault?_append_under (set : Globs) (front : List Char) :
    (set ++ [under front]).fault? = set.fault? := by
  simp [Globs.fault?, List.filter_append, form_under]

variable {c : Checker} {t : FileTree} {root : Location} {side : Side} {entry : String}
  {front : List Char}

theorem excluded_leavingOut (tame : Glob.Tame entry.toList)
    (means : Glob.unescaped (Side.trimSlashes entry.toList ++ ['/']) = front ++ ['/']) :
    ((c.leavingOut entry).discovery side).excluded =
      (c.discovery side).excluded ++ [under front] := by
  have bare : Glob.Tame (Side.trimSlashes entry.toList) :=
    fun ch h => tame ch (Side.mem_of_mem_trimSlashes h)
  have read : Glob.ofText? .path (excludeGlob entry) = some (under front) := by
    rw [excludeGlob_eq]
    exact Glob.ofText?_under_tame .path bare means
  simp [discovery, leavingOut, Discovery.excluding, Discovery.excluded, Discovery.ofSide,
    Globs.ofTexts, read]

theorem fault?_leavingOut (tame : Glob.Tame entry.toList)
    (means : Glob.unescaped (Side.trimSlashes entry.toList ++ ['/']) = front ++ ['/'])
    (config : Config) : (c.leavingOut entry).fault? config = c.fault? config := by
  have same : ∀ side, ((c.leavingOut entry).discovery side).fault? = (c.discovery side).fault? := by
    intro side
    rw [Discovery.fault?, Discovery.fault?, excluded_leavingOut tame means, fault?_append_under]
    rfl
  simp only [fault?, same]
  rfl

theorem search_leavingOut (tame : Glob.Tame entry.toList)
    (means : Glob.unescaped (Side.trimSlashes entry.toList ++ ['/']) = front ++ ['/']) :
    ((c.leavingOut entry).discovery side).search t =
      { (c.discovery side).search t with
        excludes := ((c.discovery side).search t).excludes ++ [under front] } := by
  rw [Discovery.search, excluded_leavingOut tame means]
  rfl

theorem admits_excluding (s : Discovery.Search) (g : Glob) (root : Location) (names : List String)
    (bytes : ByteArray) :
    ({ s with excludes := s.excludes ++ [g] } : Discovery.Search).admits root names bytes =
      (!g.accepts (String.intercalate "/" names) && s.admits root names bytes) := by
  have size : ({ s with excludes := s.excludes ++ [g] } : Discovery.Search).withinSize bytes =
      s.withinSize bytes := rfl
  have both : ∀ size included old new reached : Bool,
      (size && included && !(old || new) && reached) =
        (!new && (size && included && !old && reached)) := by decide
  simp only [Discovery.Search.admits, size, Globs.accepts, List.any_append, List.any_cons,
    List.any_nil, Bool.or_false]
  exact both ..

def passes (front : List Char) (root l : Location) : Bool :=
  !(front ++ ['/']).isPrefixOf
    (String.intercalate "/" ((FileTree.below? root l).getD [])).toList

theorem select_leavingOut (wellFormed : t.WellFormed) (tame : Glob.Tame entry.toList)
    (means : Glob.unescaped (Side.trimSlashes entry.toList ++ ['/']) = front ++ ['/']) :
    ((c.leavingOut entry).discovery side).select t root =
      ((c.discovery side).select t root).filter fun file => passes front root file.1 := by
  rw [Discovery.select, Discovery.select, Discovery.Search.walk, Discovery.Search.walk,
    List.filter_filter, search_leavingOut tame means]
  refine List.filter_congr ?_
  rintro ⟨l, bytes⟩ there
  unfold Discovery.Search.finds passes
  dsimp only
  cases below : FileTree.below? root l with
  | none => rw [Bool.and_false]
  | some names =>
    have proper : ∀ name ∈ names, ProperName name :=
      wellFormed.proper_below (FileTree.below?_eq_some_iff.mp below ▸ there)
    have accepted : (under front).accepts (String.intercalate "/" names) =
        (front ++ ['/']).isPrefixOf (String.intercalate "/" names).toList := by
      rw [Bool.eq_iff_iff, List.isPrefixOf_iff_prefix]
      exact Glob.accepts_under (Path.named_ofNames proper)
    dsimp only
    rw [admits_excluding, accepted, Option.getD_some]

def sitesIn (c : Checker) (root : Location) (file : Location × ByteArray) :
    List (Location × BareCall) :=
  match String.fromUTF8? file.2 with
  | some text => (c.untaggedIn root file.1 text).map (file.1, ·)
  | none => []

theorem file_of_mem_sitesIn {file : Location × ByteArray} {site : Location × BareCall}
    (member : site ∈ c.sitesIn root file) : site.1 = file.1 := by
  unfold sitesIn at member
  split at member
  · obtain ⟨_, -, rfl⟩ := List.mem_map.mp member
    rfl
  · cases member

def bareSites (c : Checker) (t : FileTree) (root : Location) (side : Side) :
    List (Location × BareCall) :=
  if c.markers.isEmpty then [] else ((c.discovery side).select t root).flatMap (c.sitesIn root)

theorem untagged_eq : c.untagged t root side = (c.bareSites t root side).map (·.2) := by
  unfold untagged bareSites
  split
  · rfl
  · rw [List.map_flatMap]
    refine List.flatMap_congr ?_
    rintro ⟨l, bytes⟩ -
    unfold sitesIn
    dsimp only
    cases String.fromUTF8? bytes with
    | none => rfl
    | some text => simp

theorem bareRoutes_leavingOut (wellFormed : t.WellFormed) (tame : Glob.Tame entry.toList)
    (means : Glob.unescaped (Side.trimSlashes entry.toList ++ ['/']) = front ++ ['/']) :
    (c.leavingOut entry).bareRoutes t root side =
      (c.bareRoutes t root side).filter fun file => passes front root file.1 := by
  have suffix : (c.leavingOut entry).routeSuffix = c.routeSuffix := rfl
  unfold bareRoutes
  rw [suffix]
  cases c.routeSuffix with
  | none => rfl
  | some suffix =>
    simp only [select_leavingOut wellFormed tame means, List.filter_filter, Bool.and_comm]

theorem bareSites_leavingOut (wellFormed : t.WellFormed) (tame : Glob.Tame entry.toList)
    (means : Glob.unescaped (Side.trimSlashes entry.toList ++ ['/']) = front ++ ['/']) :
    (c.leavingOut entry).bareSites t root side =
      (c.bareSites t root side).filter fun site => passes front root site.1 := by
  have markers : (c.leavingOut entry).markers = c.markers := rfl
  have sites : (c.leavingOut entry).sitesIn root = c.sitesIn root := rfl
  unfold bareSites
  rw [markers, sites]
  split
  · rfl
  · rw [select_leavingOut wellFormed tame means]
    refine (filter_flatMap ?_ _).symm
    intro file site member
    rw [file_of_mem_sitesIn member]

def listed (c : Checker) (t : FileTree) (root : Location) (config : Config)
    (kept : Location → Bool) : List String × List BareCall :=
  (((c.bareRoutes t root config.backend).filter fun file => kept file.1).map
      fun file => relativeText root file.1,
    ((c.bareSites t root config.frontend).filter fun site => kept site.1).map (·.2))

theorem check_eq_listed (config : Config) (s : Snapshot) :
    ((c.check t root config s).missingTags, (c.check t root config s).untagged) =
      c.listed t root config fun _ => true := by
  simp only [check, listed, missingTags_eq, untagged_eq, List.filter_true]

theorem listed_leavingOut (wellFormed : t.WellFormed) (tame : Glob.Tame entry.toList)
    (means : Glob.unescaped (Side.trimSlashes entry.toList ++ ['/']) = front ++ ['/'])
    (config : Config) (s : Snapshot) :
    (((c.leavingOut entry).check t root config s).missingTags,
        ((c.leavingOut entry).check t root config s).untagged) =
      c.listed t root config (passes front root) := by
  simp only [check, listed, missingTags_eq, untagged_eq, bareRoutes_leavingOut wellFormed tame means,
    bareSites_leavingOut wellFormed tame means]

theorem listed_congr {config : Config} {kept kept' : Location → Bool}
    (same : ∀ file ∈ t.files, ∀ names, file.1 = root ++ names → kept file.1 = kept' file.1) :
    c.listed t root config kept = c.listed t root config kept' := by
  have routes : (c.bareRoutes t root config.backend).filter (fun file => kept file.1) =
      (c.bareRoutes t root config.backend).filter (fun file => kept' file.1) := by
    refine List.filter_congr ?_
    intro file member
    obtain ⟨there, ⟨names, below⟩, -⟩ := mem_bareRoutes member
    exact same file there names below
  have sites : (c.bareSites t root config.frontend).filter (fun site => kept site.1) =
      (c.bareSites t root config.frontend).filter (fun site => kept' site.1) := by
    refine List.filter_congr ?_
    intro site member
    unfold bareSites at member
    split at member
    · cases member
    · obtain ⟨file, selected, inside⟩ := List.mem_flatMap.mp member
      obtain ⟨there, names, below⟩ := Scanner.exists_names_of_mem_select selected
      rw [file_of_mem_sitesIn inside]
      exact same file there names below
  rw [listed, listed, routes, sites]

end Checker

def FileTree.isInside (folder l : Location) : Bool := (below? folder l).any (!·.isEmpty)

theorem FileTree.isInside_iff {folder l : Location} :
    isInside folder l = true ↔ ∃ rest, rest ≠ [] ∧ l = folder ++ rest := by
  unfold isInside
  cases h : below? folder l with
  | none =>
    simp only [Option.any_none, Bool.false_eq_true, false_iff]
    rintro ⟨rest, -, rfl⟩
    rw [below?_append] at h
    cases h
  | some rest =>
    obtain rfl := below?_eq_some_iff.mp h
    simp

theorem Checker.passes_ofNames {root : Location} {names below : List String}
    (proper : ∀ name ∈ names, ProperName name) (content : names ≠ [])
    (properBelow : ∀ name ∈ below, ProperName name) :
    passes (String.intercalate "/" names).toList root (root ++ below) =
      !FileTree.isInside (root ++ names) (root ++ below) := by
  have slashless : ∀ {names : List String}, (∀ name ∈ names, ProperName name) →
      ∀ name ∈ names, '/' ∉ name.toList := fun all name h => (all name h).slashless
  have injective : Function.Injective String.toList := fun _ _ => String.toList_injective
  unfold passes
  rw [FileTree.below?_append, Option.getD_some, Bool.not_inj_iff, Bool.eq_iff_iff,
    List.isPrefixOf_iff_prefix, FileTree.isInside_iff]
  by_cases top : below = []
  · subst top
    simp [content]
  · rw [Text.append_sep_prefix_iff, Text.splitAt_intercalate (slashless proper) content,
      Text.splitAt_intercalate (slashless properBelow) top,
      List.prefix_map_iff_of_injective injective, (List.map_injective_iff.mpr injective).ne_iff]
    constructor
    · rintro ⟨⟨rest, rfl⟩, other⟩
      exact ⟨rest, by simpa using other, (List.append_assoc ..).symm⟩
    · rintro ⟨rest, some, whole⟩
      rw [List.append_assoc, List.append_cancel_left_eq] at whole
      exact ⟨⟨rest, whole.symm⟩, by simpa [whole] using some⟩

/-- A folder that is left out by an entry, against a check that does not leave it out. Whatever the
entry, nothing else changes: the check fails in the same way or not at all, and tells the same of
calls and declarations. If the glob of the entry spells the folder, then what is listed is what was
listed, in the same order, less all that lies inside the folder. If it spells anything else, then
everything is still listed that lies directly in the folder. -/
theorem Checker.leavingOut_exact {t : FileTree} (wellFormed : t.WellFormed) {names : List String}
    (content : names ≠ []) (proper : ∀ name ∈ names, ProperName name ∧ Glob.Tame name.toList)
    {entry : String} (effective : Side.folder? entry = some (String.intercalate "/" names))
    (c : Checker) (cwd : Location) (home : Path) (config : Config) (s : Snapshot) :
    (∀ fault, (c.leavingOut entry).checkAt t cwd home config s = .error fault ↔
      c.checkAt t cwd home config s = .error fault) ∧
    ∀ report, c.checkAt t cwd home config s = .ok report →
      ∃ report', (c.leavingOut entry).checkAt t cwd home config s = .ok report' ∧
        report'.unresolved = report.unresolved ∧ report'.duplicates = report.duplicates ∧
        ((∀ base, t.locate cwd home ≠ .ok base) → report' = report) ∧
        ∀ base, t.locate cwd home = .ok base →
          (report.missingTags, report.untagged) = c.listed t base config (fun _ => true) ∧
          (Spells entry (String.intercalate "/" names) →
            (report'.missingTags, report'.untagged) =
              c.listed t base config fun l => !FileTree.isInside (base ++ names) l) ∧
          (¬ Spells entry (String.intercalate "/" names) →
            ∃ kept : Location → Bool,
              (report'.missingTags, report'.untagged) = c.listed t base config kept ∧
              ∀ name, ProperName name → kept (base ++ names ++ [name]) = true) := by
  obtain ⟨front, means⟩ := Glob.exists_unescaped_slash (Side.trimSlashes entry.toList)
  have properNames : ∀ name ∈ names, ProperName name := fun name h => (proper name h).1
  have folder := intercalate_ne_empty properNames content
  have tame : Glob.Tame entry.toList := by
    refine Side.tame_of_folder? effective folder ?_
    intro ch hc
    rcases Text.mem_intercalate hc with rfl | ⟨name, member, inside⟩
    · decide
    · exact (proper name member).2 ch inside
  have sameFault := fault?_leavingOut (c := c) tame means config
  unfold checkAt
  rw [sameFault]
  cases c.fault? config with
  | some f => exact ⟨fun fault => Iff.rfl, fun report failed => by cases failed⟩
  | none =>
    cases leads : t.locate cwd home with
    | error e =>
      refine ⟨fun fault => Iff.rfl, ?_⟩
      rintro _ ⟨⟩
      exact ⟨_, rfl, rfl, rfl, fun _ => rfl, fun base elsewhere => by cases elsewhere⟩
    | ok base =>
      refine ⟨fun fault => by simp, ?_⟩
      rintro _ ⟨⟩
      refine ⟨_, rfl, rfl, rfl, fun nowhere => absurd rfl (nowhere base), ?_⟩
      rintro _ ⟨⟩
      refine ⟨check_eq_listed config s, ?_, ?_⟩
      · intro spells
        rw [listed_leavingOut wellFormed tame spells]
        refine listed_congr ?_
        rintro ⟨l, bytes⟩ there below rfl
        exact passes_ofNames properNames content (wellFormed.proper_below there)
      · intro other
        refine ⟨passes front base, listed_leavingOut wellFormed tame means config s, ?_⟩
        intro name properName
        rw [List.append_assoc, passes, FileTree.below?_append, Option.getD_some, Bool.not_eq_true',
          Bool.eq_false_iff]
        intro inside
        exact other (spells_of_direct properNames content effective means properName.slashless
          (List.isPrefixOf_iff_prefix.mp inside))

def legacyTree : FileTree where
  entries := [(["ws"], .folder),
    (["ws", "app.ts"], .file "fetch(url)".toUTF8),
    (["ws", "legacy"], .folder),
    (["ws", "legacy", "old.ts"], .file "fetch(url)".toUTF8)]
  ascending := by decide +kernel

theorem Checker.leavingOut_legacy :
    let c : Checker := { routeSuffix := some ".ts" }
    c.checkAt legacyTree [] ⟨"/ws"⟩ .everything .initial =
        .ok ⟨["app.ts", "legacy/old.ts"],
          [⟨"app.ts", 1, ".ts"⟩, ⟨"legacy/old.ts", 1, ".ts"⟩], [], []⟩ ∧
      (c.leavingOut "/legacy/").checkAt legacyTree [] ⟨"/ws"⟩ .everything .initial =
        .ok ⟨["app.ts"], [⟨"app.ts", 1, ".ts"⟩], [], []⟩ := by
  intro c
  have wellFormed : legacyTree.WellFormed := by decide +kernel
  have leads : legacyTree.locate [] ⟨"/ws"⟩ = .ok ["ws"] := by decide +kernel
  have checked : c.checkAt legacyTree [] ⟨"/ws"⟩ .everything .initial =
      .ok ⟨["app.ts", "legacy/old.ts"],
        [⟨"app.ts", 1, ".ts"⟩, ⟨"legacy/old.ts", 1, ".ts"⟩], [], []⟩ := by
    decide +kernel
  have effective : Side.folder? "/legacy/" = some (String.intercalate "/" ["legacy"]) := by
    decide +kernel
  obtain ⟨-, exact⟩ := leavingOut_exact wellFormed (by decide) (by decide) effective c [] ⟨"/ws"⟩
    .everything .initial
  obtain ⟨⟨missing, untagged, unresolved, duplicates⟩, left, rfl, rfl, -, lists⟩ := exact _ checked
  obtain ⟨-, kept, -⟩ := lists ["ws"] leads
  have listed : c.listed legacyTree ["ws"] .everything
      (fun l => !FileTree.isInside (["ws"] ++ ["legacy"]) l) =
        (["app.ts"], [⟨"app.ts", 1, ".ts"⟩]) := by decide +kernel
  obtain ⟨rfl, rfl⟩ := Prod.mk.inj ((kept (by decide +kernel)).trans listed)
  exact ⟨checked, left⟩

theorem Checker.leavingOut_dotted :
    Side.folder? "./legacy" = some "legacy" ∧
    (leavingOut { routeSuffix := some ".ts" } "./legacy").checkAt legacyTree [] ⟨"/ws"⟩ .everything
        .initial =
      .ok ⟨["app.ts", "legacy/old.ts"],
        [⟨"app.ts", 1, ".ts"⟩, ⟨"legacy/old.ts", 1, ".ts"⟩], [], []⟩ := by
  decide +kernel

end RouteTags
