import RouteTags.Proofs.Files.Paths
import RouteTags.Selection.Discovery

namespace RouteTags

namespace FileTree

variable {t : FileTree} {l m : Location} {bytes junk : ByteArray}

theorem entries_insert (there : (l, bytes) ∈ t.files) (junk : ByteArray) :
    (t.insert l (.file junk)).entries =
      t.entries.map fun e => if e.1 = l then (l, .file junk) else e :=
  insertEntry_of_mem t.ascending (mem_files_iff.mp there)

theorem mem_files_insert (there : (l, bytes) ∈ t.files) (junk : ByteArray)
    {file : Location × ByteArray} :
    file ∈ (t.insert l (.file junk)).files ↔
      file = (l, junk) ∨ file ∈ t.files ∧ file.1 ≠ l := by
  obtain ⟨m, other⟩ := file
  rw [mem_files_iff, mem_files_iff, entries_insert there, List.mem_map]
  constructor
  · rintro ⟨⟨k, n⟩, member, placed⟩
    by_cases here : k = l
    · rw [if_pos here] at placed
      cases placed
      exact .inl rfl
    · rw [if_neg here] at placed
      cases placed
      exact .inr ⟨member, here⟩
  · rintro (new | ⟨old, apart⟩)
    · cases new
      exact ⟨(l, .file bytes), mem_files_iff.mp there, if_pos rfl⟩
    · exact ⟨(m, .file other), old, if_neg apart⟩

theorem files_insert (there : (l, bytes) ∈ t.files) (junk : ByteArray) :
    (t.insert l (.file junk)).files =
      t.files.map fun file => if file.1 = l then (l, junk) else file := by
  rw [files, files, entries_insert there, List.filterMap_map, List.map_filterMap]
  refine List.filterMap_congr ?_
  rintro ⟨k, n⟩ member
  by_cases here : k = l
  · subst here
    obtain rfl : n = .file bytes := congrArg Prod.snd
      (eq_of_key t.ascending member (mem_files_iff.mp there) rfl)
    simp
  · cases n <;> simp [here]

theorem lookup_map {entries : List (Location × Node)} (apart : m ≠ l) (n : Node) :
    (entries.map fun e => if e.1 = l then (l, n) else e).lookup m = entries.lookup m := by
  induction entries with
  | nil => rfl
  | cons first rest ih =>
    obtain ⟨k, o⟩ := first
    rw [List.map_cons]
    by_cases here : k = l
    · have skip : (m == l) = false := by simpa using apart
      rw [if_pos here, List.lookup_cons, List.lookup_cons, ih, here, skip]
    · rw [if_neg here, List.lookup_cons, List.lookup_cons, ih]

theorem get?_insert_cases (there : (l, bytes) ∈ t.files) (junk : ByteArray) (m : Location) :
    (t.insert l (.file junk)).get? m = t.get? m ∨
      ∃ old new, t.get? m = some (.file old) ∧
        (t.insert l (.file junk)).get? m = some (.file new) := by
  cases m with
  | nil => exact .inl rfl
  | cons name names =>
    by_cases here : name :: names = l
    · subst here
      have replaced := (mem_files_insert there junk).mpr (.inl rfl)
      exact .inr ⟨bytes, junk, lookup_of_mem t.ascending (mem_files_iff.mp there),
        lookup_of_mem (t.insert _ _).ascending (mem_files_iff.mp replaced)⟩
    · refine .inl ?_
      simp only [get?, entries_insert there]
      exact lookup_map here _

theorem follow_insert (there : (l, bytes) ∈ t.files) (junk : ByteArray) :
    (t.insert l (.file junk)).follow = t.follow := by
  funext m c
  unfold follow
  rcases get?_insert_cases there junk m with same | ⟨old, new, before, after⟩
  · rw [same]
  · rw [before, after]

theorem locate_insert (there : (l, bytes) ∈ t.files) (junk : ByteArray) (cwd : Location)
    (p : Path) : (t.insert l (.file junk)).locate cwd p = t.locate cwd p := by
  rw [locate, locate, follow_insert there]

theorem resolve_insert (there : (l, bytes) ∈ t.files) (junk : ByteArray) (cwd : Location)
    (p : Path) : (t.insert l (.file junk)).resolve cwd p = t.resolve cwd p := by
  rw [resolve, resolve, lookup, lookup, locate_insert there]
  cases t.locate cwd p with
  | error e => rfl
  | ok m =>
    rcases get?_insert_cases there junk m with same | ⟨old, new, before, after⟩
    · simp only [bind, Except.bind, same]
    · simp only [bind, Except.bind, before, after]
      rfl

theorem WellFormed.insert_file (wellFormed : t.WellFormed) (there : (l, bytes) ∈ t.files)
    (junk : ByteArray) : (t.insert l (.file junk)).WellFormed := by
  have placed : ∀ e ∈ (t.insert l (.file junk)).entries, ∃ old ∈ t.entries, old.1 = e.1 := by
    intro e he
    rw [entries_insert there, List.mem_map] at he
    obtain ⟨old, member, rfl⟩ := he
    refine ⟨old, member, ?_⟩
    split <;> simp_all
  refine ⟨?_, ?_⟩
  · intro e he
    obtain ⟨old, member, same⟩ := placed e he
    exact same ▸ wellFormed.names old member
  · intro e he front rest split content
    obtain ⟨old, member, same⟩ := placed e he
    have folder := wellFormed.parents old member front rest (same.trans split) content
    rcases get?_insert_cases there junk front with kept | ⟨old, new, before, -⟩
    · rw [kept, folder]
    · rw [folder] at before
      cases before

/-- The file is none that tells what to ignore. -/
def NoIgnoreFile (l : Location) : Prop :=
  ∀ name ∈ IgnoreFile.ownName :: IgnoreFile.versionNames, ¬ name <:+ l

theorem filterMap_entries_insert {α : Type} (there : (l, bytes) ∈ t.files)
    {give : Location × Node → Option α} (same : give (l, .file junk) = give (l, .file bytes)) :
    (t.insert l (.file junk)).entries.filterMap give = t.entries.filterMap give := by
  rw [entries_insert there, List.filterMap_map]
  refine List.filterMap_congr ?_
  rintro ⟨k, n⟩ member
  by_cases here : k = l
  · subst here
    have old : n = .file bytes := congrArg Prod.snd
      (eq_of_key t.ascending member (mem_files_iff.mp there) rfl)
    rw [Function.comp_apply, if_pos rfl, old, same]
  · rw [Function.comp_apply, if_neg here]

theorem filesNamed_insert (there : (l, bytes) ∈ t.files) (junk : ByteArray) {name : List String}
    (other : ¬ name <:+ l) :
    IgnoreFile.filesNamed name (t.insert l (.file junk)) = IgnoreFile.filesNamed name t := by
  have silent : ∀ bytes, IgnoreFile.ofNode? name (l, .file bytes) = none := by
    intro bytes
    have suffix : ¬ name.isSuffixOf l = true := by rwa [List.isSuffixOf_iff_suffix]
    exact if_neg suffix
  rw [IgnoreFile.filesNamed, IgnoreFile.filesNamed,
    filterMap_entries_insert there ((silent junk).trans (silent bytes).symm)]

theorem ignoreFiles_insert (there : (l, bytes) ∈ t.files) (junk : ByteArray)
    (plain : NoIgnoreFile l) (gitignore : Bool) :
    ignoreFiles (t.insert l (.file junk)) gitignore = ignoreFiles t gitignore := by
  refine List.map_congr_left fun name member => filesNamed_insert there junk ?_
  apply plain
  cases gitignore with
  | true => exact member
  | false => exact List.mem_cons.mpr (.inl (by simpa using member))

theorem passedBy_insert (there : (l, bytes) ∈ t.files) (junk : ByteArray)
    (ranks : List (List IgnoreFile)) (hidden : Bool) :
    passedBy ranks hidden (t.insert l (.file junk)) = passedBy ranks hidden t :=
  filterMap_entries_insert there rfl

theorem search_insert (there : (l, bytes) ∈ t.files) (junk : ByteArray) (plain : NoIgnoreFile l)
    (d : Discovery) : d.search (t.insert l (.file junk)) = d.search t := by
  rw [Discovery.search, Discovery.search, ignoreFiles_insert there junk plain,
    passedBy_insert there]

end FileTree

end RouteTags
