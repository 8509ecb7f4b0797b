import RouteTags.Proofs.Selection.Rules
import RouteTags.Proofs.Files.Entries
import RouteTags.Selection.Discovery

namespace RouteTags

theorem Globs.accepts_ofTexts_iff {texts : List String} {text : String} :
    (ofTexts texts).accepts text = true ↔
      ∃ pattern ∈ texts, ∃ g, Glob.ofText? .path pattern = some g ∧ g.accepts text = true := by
  simp only [accepts, Glob.accepts, List.any_eq_true, ofTexts, List.mem_filterMap]
  constructor
  · rintro ⟨g, ⟨pattern, listed, read⟩, accepted⟩
    exact ⟨pattern, listed, g, read, accepted⟩
  · rintro ⟨pattern, listed, g, read, accepted⟩
    exact ⟨g, ⟨pattern, listed, read⟩, accepted⟩

namespace Excludes

def Literally (s : List Char) : Prop := Glob.Plain s ∧ '/' ∉ s ∧ s ≠ []

instance (s : List Char) : Decidable (Literally s) :=
  inferInstanceAs (Decidable (Glob.Plain s ∧ '/' ∉ s ∧ s ≠ []))

theorem literally_folders : ∀ folder ∈ folders, Literally folder.toList := by decide

theorem literally_files : ∀ name ∈ files, Literally name.toList := by decide

theorem literally_endings : ∀ ending ∈ endings, Literally ending.toList := by decide

theorem proper_folders : ∀ folder ∈ folders, ProperName folder := by
  intro folder h
  constructor <;> revert folder <;> decide

/-- A path is left out for one of its names: a folder on the way, the last name, or its end. -/
def Hides (names : List String) : Prop :=
  (∃ folder ∈ folders, folder ∈ names.dropLast) ∨
    (∃ name ∈ files, names.getLast? = some name) ∨
    ∃ ending ∈ endings, ∃ last, names.getLast? = some last ∧ ending.toList <:+ last.toList

theorem not_hides_empty {names : List String} (empty : names = [] ∨ names = [""]) :
    ¬ Hides names := by
  rintro (⟨folder, -, onTheWay⟩ | ⟨name, listed, last⟩ | ⟨ending, listed, last, ends, suffix⟩)
  · rcases empty with rfl | rfl <;> cases onTheWay
  · rcases empty with rfl | rfl
    · cases last
    · rw [← Option.some.inj last] at listed
      revert listed
      decide
  · rcases empty with rfl | rfl
    · cases ends
    · rw [← Option.some.inj ends] at suffix
      exact (literally_endings ending listed).2.2 (List.suffix_nil.mp suffix)

theorem ofText?_folder {folder : String} (literally : Literally folder.toList) :
    Glob.ofText? .path ("**/" ++ folder ++ "/**") =
      some ⟨false, .deepFirst :: (Token.literally folder.toList ++ [.deepLast])⟩ := by
  have chars : "**/" ++ folder ++ "/**" =
      String.ofList ('*' :: '*' :: '/' :: (folder.toList ++ ['/', '*', '*'])) := by
    apply String.toList_injective
    simp
  rw [chars, Glob.ofText?_under_anywhere .path literally.1]
  rfl

theorem ofText?_file {name : String} (literally : Literally name.toList) :
    Glob.ofText? .path ("**/" ++ name) =
      some ⟨false, .deepFirst :: Token.literally name.toList⟩ := by
  have chars : "**/" ++ name = String.ofList ('*' :: '*' :: '/' :: name.toList) := by
    apply String.toList_injective
    simp
  rw [chars, Glob.ofText?_anywhere .path literally.1]
  rfl

theorem ofText?_ending {ending : String} (literally : Literally ending.toList) :
    Glob.ofText? .path ("**/*" ++ ending) =
      some ⟨false, .deepFirst :: .many :: Token.literally ending.toList⟩ := by
  have chars : "**/*" ++ ending = String.ofList ('*' :: '*' :: '/' :: '*' :: ending.toList) := by
    apply String.toList_injective
    simp
  rw [chars, Glob.ofText?_star .path literally.1]
  rfl

theorem mem_patterns_iff {pattern : String} : pattern ∈ patterns ↔
    (∃ folder ∈ folders, "**/" ++ folder ++ "/**" = pattern) ∨
      (∃ name ∈ files, "**/" ++ name = pattern) ∨
      ∃ ending ∈ endings, "**/*" ++ ending = pattern := by
  simp only [patterns, List.mem_append, List.mem_map, or_assoc]

theorem usable_standard : standard.Usable := by
  intro g member _
  obtain ⟨pattern, listed, read⟩ := List.mem_filterMap.mp member
  have whole : ∀ {h : Glob}, Glob.ofText? .path pattern = some h → h = g :=
    fun other => Option.some.inj (other.symm.trans read)
  rcases mem_patterns_iff.mp listed with
    ⟨folder, h, rfl⟩ | ⟨name, h, rfl⟩ | ⟨ending, h, rfl⟩
  · rw [← whole (ofText?_folder (literally_folders folder h))]
    simp [Glob.isUsable, Glob.height, Glob.maxHeight, Token.listHeight, Token.height,
      Glob.listHeight_literally]
  · rw [← whole (ofText?_file (literally_files name h))]
    simp [Glob.isUsable, Glob.height, Glob.maxHeight, Token.listHeight, Token.height,
      Glob.listHeight_plain]
  · rw [← whole (ofText?_ending (literally_endings ending h))]
    simp [Glob.isUsable, Glob.height, Glob.maxHeight, Token.listHeight, Token.height,
      Glob.listHeight_plain]

section

variable {text : String} (named : Glob.Named text)

include named

theorem accepts_folder_iff {folder : String} (literally : Literally folder.toList) :
    (∃ g, Glob.ofText? .path ("**/" ++ folder ++ "/**") = some g ∧ g.accepts text = true) ↔
      folder.toList ∈ (Text.splitAt '/' text.toList).dropLast := by
  simp only [ofText?_folder literally, Option.some.injEq, exists_eq_left']
  exact Glob.accepts_under_anywhere literally.2.1 named

theorem accepts_file_iff {name : String} (literally : Literally name.toList) :
    (∃ g, Glob.ofText? .path ("**/" ++ name) = some g ∧ g.accepts text = true) ↔
      (Text.splitAt '/' text.toList).getLast? = some name.toList := by
  simp only [ofText?_file literally, Option.some.injEq, exists_eq_left']
  exact Glob.accepts_anywhere literally.2.1 literally.2.2 named

theorem accepts_ending_iff {ending : String} (literally : Literally ending.toList) :
    (∃ g, Glob.ofText? .path ("**/*" ++ ending) = some g ∧ g.accepts text = true) ↔
      ∃ last, (Text.splitAt '/' text.toList).getLast? = some last ∧ ending.toList <:+ last := by
  simp only [ofText?_ending literally, Option.some.injEq, exists_eq_left']
  exact (Glob.accepts_star named).trans (Text.suffix_iff_last literally.2.1 _)

theorem standard_accepts_iff {names : List String}
    (cut : Text.splitAt '/' text.toList = names.map String.toList) :
    standard.accepts text = true ↔ Hides names := by
  have same : ∀ name : String, name.toList ∈ (names.map String.toList).dropLast ↔
      name ∈ names.dropLast := by
    intro name
    rw [← List.map_dropLast]
    exact List.mem_map_of_injective fun _ _ => String.toList_injective
  rw [standard, Globs.accepts_ofTexts_iff]
  simp only [mem_patterns_iff, or_and_right, exists_or, exists_exists_and_eq_and]
  refine or_congr ?_ (or_congr ?_ ?_)
  · refine exists_congr fun folder => and_congr_right fun h => ?_
    rw [accepts_folder_iff named (literally_folders folder h), cut, same]
  · refine exists_congr fun name => and_congr_right fun h => ?_
    rw [accepts_file_iff named (literally_files name h), cut, List.getLast?_map]
    simp [String.toList_inj]
  · refine exists_congr fun ending => and_congr_right fun h => ?_
    rw [accepts_ending_iff named (literally_endings ending h), cut, List.getLast?_map]
    simp

end

def textsOf (pieces : List Path.Piece) : List String := pieces.map fun piece => String.ofList piece.2

section

variable {pieces : List Path.Piece} (inside : ∀ piece ∈ pieces, ∃ s, '/' ∉ s ∧ piece = Path.inner s)

include inside

theorem mem_textsOf_iff {name : String} (proper : ProperName name) :
    name ∈ textsOf pieces ↔ .name name ∈ pieces.filterMap (·.1) := by
  simp only [textsOf, List.mem_map, List.mem_filterMap]
  constructor
  · rintro ⟨piece, member, same⟩
    obtain ⟨s, -, rfl⟩ := inside piece member
    rw [Path.inner_snd] at same
    have text : s = name.toList := by rw [← same, String.toList_ofList]
    refine ⟨_, member, ?_⟩
    rw [text, Path.inner_of_proper proper]
    rfl
  · rintro ⟨piece, member, named⟩
    obtain ⟨s, -, rfl⟩ := inside piece member
    exact ⟨_, member, by rw [Path.inner_snd, Path.eq_of_inner_eq_name named]⟩

theorem splitAt_ofPieces (content : pieces ≠ []) :
    Text.splitAt '/' (Path.ofPieces pieces).text.toList = (textsOf pieces).map String.toList := by
  have slashless : ∀ s ∈ pieces.map (·.2), '/' ∉ s := by
    intro s member
    obtain ⟨piece, listed, rfl⟩ := List.mem_map.mp member
    obtain ⟨s, absent, rfl⟩ := inside piece listed
    rwa [Path.inner_snd]
  have text : (Path.ofPieces pieces).text.toList = Text.joinWith '/' (pieces.map (·.2)) := by
    unfold Path.ofPieces
    split
    · obtain ⟨s, -, same⟩ := inside _ List.mem_cons_self
      exact absurd (congrArg Prod.fst same).symm (Path.inner_ne_root s)
    · exact String.toList_ofList
  rw [text, Text.splitAt_joinWith slashless (by simpa using content)]
  simp [textsOf]

variable {names : List String} (components : pieces.filterMap (·.1) = names.map .name)

include components

theorem exists_last_name (solid : ∀ last, pieces.getLast? = some last → last.1.isNone = false)
    (content : pieces ≠ []) :
    ∃ front before name, pieces = front ++ [Path.pieceOf name] ∧ names = before ++ [name] ∧
      front.filterMap (·.1) = before.map .name := by
  obtain ⟨front, ⟨component, text⟩, rfl⟩ := (List.eq_nil_or_concat' pieces).resolve_left content
  cases component with
  | none => cases solid _ List.getLast?_concat
  | some component =>
    rw [List.filterMap_append] at components
    obtain ⟨before, last, rfl, onTheWay, ends⟩ := List.map_eq_append_iff.mp components.symm
    obtain ⟨name, rfl, rfl⟩ := List.map_eq_singleton_iff.mp ends
    obtain ⟨s, -, same⟩ := inside _ (List.mem_append_right front List.mem_cons_self)
    have named := Path.eq_of_inner_eq_name (congrArg Prod.fst same).symm
    have whole : text = s := (congrArg Prod.snd same).trans (Path.inner_snd s)
    refine ⟨front, before, name, ?_, rfl, onTheWay.symm⟩
    rw [Path.pieceOf, whole, named, String.toList_ofList]

end

theorem standard_accepts_empty_iff : standard.accepts "" = true ↔ Hides [] := by
  have named : Glob.Named "" := Glob.named_of_last (by decide)
  have cut : Text.splitAt '/' "".toList = [""].map String.toList := rfl
  rw [standard_accepts_iff named cut, iff_false_left (not_hides_empty (.inr rfl))]
  exact not_hides_empty (.inl rfl)

theorem standard_accepts_ofNames {names : List String} (proper : ∀ name ∈ names, ProperName name) :
    standard.accepts (Path.ofNames names).text = true ↔ Hides names := by
  by_cases top : names = []
  · rw [top]
    exact standard_accepts_empty_iff
  · exact standard_accepts_iff (Path.named_ofNames proper)
      (Text.splitAt_intercalate (fun name h => (proper name h).slashless) top)

theorem folders_apart : ∀ folder ∈ folders,
    folder ∉ files ∧ ∀ ending ∈ endings, ¬ ending.toList <:+ folder.toList := by decide

theorem hides_concat_iff {front : List String} {last : String} : Hides (front ++ [last]) ↔
    (∃ folder ∈ folders, folder ∈ front) ∨ last ∈ files ∨
      ∃ ending ∈ endings, ending.toList <:+ last.toList := by
  simp [Hides]

/-- The standard excludes can be used, and leave out a path for an excluded folder in front of its
last name, or for its last name, when that is an excluded file or has an excluded ending. So the
name of an excluded folder is harmless at the end, and any other name is harmless in front of it. -/
theorem standard_exact {front : List String} {last : String}
    (proper : ∀ name ∈ front ++ [last], ProperName name) :
    standard.fault? = none ∧
    (standard.accepts (Path.ofNames (front ++ [last])).text = true ↔
      (∃ folder ∈ folders, folder ∈ front) ∨ last ∈ files ∨
        ∃ ending ∈ endings, ending.toList <:+ last.toList) ∧
    (last ∈ folders → (standard.accepts (Path.ofNames (front ++ [last])).text = true ↔
      ∃ folder ∈ folders, folder ∈ front)) ∧
    ∀ before name after, front = before ++ name :: after → name ∉ folders →
      (standard.accepts (Path.ofNames (front ++ [last])).text = true ↔
        standard.accepts (Path.ofNames (before ++ after ++ [last])).text = true) := by
  have exact : standard.accepts (Path.ofNames (front ++ [last])).text = true ↔ _ :=
    (standard_accepts_ofNames proper).trans hides_concat_iff
  refine ⟨Globs.fault?_eq_none_iff.mpr usable_standard, exact, ?_, ?_⟩
  · intro folder
    obtain ⟨notFile, noEnding⟩ := folders_apart last folder
    rw [exact, or_iff_left]
    rintro (file | ⟨ending, listed, suffix⟩)
    · exact notFile file
    · exact noEnding ending listed suffix
  · rintro before name after rfl harmless
    have kept := ((List.sublist_cons_self name after).append_left before).append_right [last]
    have proper' : ∀ other ∈ before ++ after ++ [last], ProperName other :=
      fun other member => proper other (kept.subset member)
    rw [exact, (standard_accepts_ofNames proper').trans hides_concat_iff]
    refine or_congr_left (exists_congr fun folder => and_congr_right fun listed => ?_)
    have differs : folder ≠ name := fun same => harmless (same ▸ listed)
    simp [differs]

theorem standard_exact_folders :
    standard.accepts (Path.ofNames ["packages", "dist", "app.ts"]).text = true ∧
    ¬ standard.accepts (Path.ofNames ["distribution", "logo.png", "build"]).text = true := by
  have within : ∀ name ∈ ["packages", "dist"] ++ ["app.ts"], ProperName name := by decide
  have apart : ∀ name ∈ ["distribution", "logo.png"] ++ ["build"], ProperName name := by decide
  constructor
  · exact (standard_exact within).2.1.mpr (.inl ⟨"dist", by decide, by decide⟩)
  · intro hidden
    exact absurd (((standard_exact apart).2.2.1 (by decide)).mp hidden) (by decide)

theorem standard_accepts_below {p base : Path} {names : List String}
    (proper : ∀ name ∈ names, ProperName name) (content : base.components ≠ [])
    (whole : p.components = base.components ++ names.map .name) :
    ∃ relative, p.below? base = some relative ∧
      (standard.accepts relative.text = true ↔ Hides names) := by
  obtain ⟨pieces, below, components, inside, solid⟩ := Path.below?_of_components content whole
  refine ⟨_, below, ?_⟩
  by_cases top : pieces = []
  · subst top
    rw [List.map_eq_nil_iff.mp components.symm]
    exact standard_accepts_empty_iff
  · have cut := splitAt_ofPieces inside top
    obtain ⟨front, before, name, rfl, rfl, onTheWay⟩ := exists_last_name inside components solid top
    have texts : textsOf (front ++ [Path.pieceOf name]) = textsOf front ++ [name] := by
      simp [textsOf, Path.pieceOf]
    have named : Glob.Named (Path.ofPieces (front ++ [Path.pieceOf name])).text := by
      apply Glob.named_of_last
      rw [cut, texts, List.map_append, List.map_singleton, List.getLast?_concat]
      exact fun up => (proper name (by simp)).notUp (Option.some.inj up)
    have within : ∀ piece ∈ front, ∃ s, '/' ∉ s ∧ piece = Path.inner s :=
      fun piece h => inside piece (List.mem_append_left _ h)
    have folder : ∀ folder ∈ folders, (folder ∈ textsOf front ↔ folder ∈ before) := by
      intro folder h
      rw [mem_textsOf_iff within (proper_folders folder h), onTheWay]
      exact List.mem_map_of_injective fun _ _ => Component.name.inj
    rw [standard_accepts_iff named cut, texts, Hides, Hides]
    simp only [List.dropLast_concat, List.getLast?_concat]
    exact or_congr_left (exists_congr fun name => and_congr_right (folder name))

end Excludes

namespace Discovery

variable {d : Discovery} {t : FileTree} {cwd root l : Location} {names : List String}
  {bytes : ByteArray} {folder p : Path} {found : List Path}

theorem exists_of_discover (discovered : d.discover t cwd folder = .ok found) (member : p ∈ found) :
    ∃ root, t.locate cwd folder = .ok root ∧
      ∃ file ∈ d.select t root, p = pathFrom folder root file.1 := by
  unfold discover at discovered
  cases fault : d.fault? with
  | some fault' =>
    rw [fault] at discovered
    cases discovered
  | none =>
    rw [fault] at discovered
    cases leads : t.locate cwd folder with
    | error e =>
      rw [leads] at discovered
      cases discovered
      cases member
    | ok root =>
      rw [leads] at discovered
      cases discovered
      obtain ⟨reached, inside, rfl⟩ := List.mem_map.mp member
      obtain ⟨file, selected, rfl⟩ := List.mem_map.mp inside
      exact ⟨root, rfl, file, selected, rfl⟩

theorem not_hides_of_mem_select (standard : d.standardExcludes = true)
    (proper : ∀ name ∈ names, ProperName name)
    (selected : (root ++ names, bytes) ∈ d.select t root) : ¬ Excludes.Hides names := by
  have found : (d.search t).finds root (root ++ names) bytes = true :=
    (List.mem_filter.mp selected).2
  have excludes : (d.search t).excludes = Excludes.standard ++ .ofTexts d.excludes := by
    rw [search, excluded, standard]
    rfl
  rw [← Excludes.standard_accepts_ofNames proper]
  simp only [Search.finds, FileTree.below?_append, Search.admits, excludes, Globs.accepts,
    List.any_append, Bool.and_eq_true, Bool.not_eq_true', Bool.or_eq_false_iff] at found
  rw [Bool.not_eq_true, Globs.accepts]
  exact found.1.2.1

end Discovery

end RouteTags
