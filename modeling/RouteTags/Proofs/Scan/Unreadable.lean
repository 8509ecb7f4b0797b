import RouteTags.Proofs.Files.Replace
import RouteTags.Proofs.Scan.Folders

/-! A selected file that stops being text. The finds are the same but for what they hold at its
paths, and so is the selection. -/
namespace RouteTags

def FileTree.leadsTo (t : FileTree) (cwd l : Location) (p : Path) : Bool :=
  (t.locate cwd p).toOption == some l

theorem FileTree.leadsTo_iff {t : FileTree} {cwd l : Location} {p : Path} :
    t.leadsTo cwd l p = true ↔ t.locate cwd p = .ok l := by
  unfold leadsTo
  cases t.locate cwd p <;> simp [Except.toOption]

def Selected.withBytes (gone : Path → Bool) (junk : ByteArray) (f : Selected) : Selected :=
  if gone f.path then { f with bytes := junk } else f

/-- A find as it is when the paths that are gone hold something else. -/
def refilled (gone : Path → Bool) (junk : ByteArray) (file : Path × ByteArray) : Path × ByteArray :=
  if gone file.1 then (file.1, junk) else file

theorem path_refilled (gone : Path → Bool) (junk : ByteArray) (file : Path × ByteArray) :
    (refilled gone junk file).1 = file.1 := by
  unfold refilled
  split <;> rfl

section WithBytes

variable {gone : Path → Bool} {cwd l : Location} {bytes junk : ByteArray}

theorem Selected.path_withBytes (f : Selected) : (f.withBytes gone junk).path = f.path := by
  unfold withBytes
  split <;> rfl

theorem Selected.has_withBytes (f : Selected) (kind : TagKind) :
    (f.withBytes gone junk).has kind = f.has kind := by
  unfold withBytes
  split
  · cases kind <;> rfl
  · rfl

theorem Selected.mark_withBytes (f : Selected) (kind : TagKind) :
    (f.withBytes gone junk).mark kind = (f.mark kind).withBytes gone junk := by
  rw [withBytes, withBytes, path_mark]
  split
  · cases kind <;> rfl
  · rfl

theorem Selected.unmarked_refilled (gone : Path → Bool) (junk : ByteArray)
    (file : Path × ByteArray) :
    unmarked file.1 (refilled gone junk file).2 =
      (unmarked file.1 file.2).withBytes gone junk := by
  unfold refilled withBytes unmarked
  split <;> rfl

theorem Selected.markIn_refilled (gone : Path → Bool) (junk : ByteArray) (kind : TagKind)
    (file : Path × ByteArray) (files : List Selected) :
    markIn kind file.1 (refilled gone junk file).2 (files.map (withBytes gone junk)) =
      (markIn kind file.1 file.2 files).map (withBytes gone junk) := by
  induction files with
  | nil => simp only [markIn, List.map_nil, List.map_cons, unmarked_refilled, mark_withBytes]
  | cons f files ih =>
    rw [List.map_cons, markIn, markIn, path_withBytes]
    cases file.1.order f.path with
    | lt => simp only [List.map_cons, unmarked_refilled, mark_withBytes]
    | eq => simp only [List.map_cons, mark_withBytes]
    | gt => simp only [List.map_cons, ih]

def Selection.withBytes (gone : Path → Bool) (junk : ByteArray) (s : Selection) : Selection where
  files := s.files.map (Selected.withBytes gone junk)
  ascending := by
    rw [List.pairwise_map]
    simpa only [Selected.path_withBytes] using s.ascending

theorem Selection.mark_refilled (s : Selection) (kind : TagKind) (file : Path × ByteArray) :
    (s.withBytes gone junk).mark kind (refilled gone junk file) =
      (s.mark kind file).withBytes gone junk := by
  have files := Selected.markIn_refilled gone junk kind file s.files
  simp only [mark, withBytes, path_refilled, files]

theorem Selection.ofFinds_refilled (finds : List (TagKind × Path × ByteArray)) :
    ofFinds (finds.map fun find => (find.1, refilled gone junk find.2)) =
      (ofFinds finds).withBytes gone junk := by
  have run : ∀ s : Selection,
      (finds.map fun find => (find.1, refilled gone junk find.2)).foldl
          (fun s find => s.mark find.1 find.2) (s.withBytes gone junk) =
        (finds.foldl (fun s find => s.mark find.1 find.2) s).withBytes gone junk := by
    induction finds with
    | nil => exact fun _ => rfl
    | cons find finds ih =>
      intro s
      rw [List.map_cons, List.foldl_cons, mark_refilled, ih, List.foldl_cons]
  exact run .empty

variable {t : FileTree} {s : Selection} {found found' : TagKind → Path × ByteArray → Prop}

theorem Selected.holds_withBytes (there : (l, bytes) ∈ t.files) {f : Selected}
    (holds : t.Holds cwd f.file) :
    (t.insert l (.file junk)).Holds cwd (f.withBytes (t.leadsTo cwd l) junk).file := by
  obtain ⟨m, leads, old⟩ := holds
  refine ⟨m, ?_, (FileTree.mem_files_insert there junk).mpr ?_⟩
  · rw [FileTree.locate_insert there, file, path_withBytes]
    exact leads
  · unfold withBytes
    split
    · rename_i here
      obtain rfl : m = l := Except.ok.inj (leads.symm.trans (FileTree.leadsTo_iff.mp here))
      exact .inl rfl
    · rename_i apart
      refine .inr ⟨old, ?_⟩
      rintro rfl
      exact apart (FileTree.leadsTo_iff.mpr leads)

theorem Selection.Records.withBytes (h : Records t cwd s found) (there : (l, bytes) ∈ t.files)
    (source : ∀ kind file, found' kind file → (t.insert l (.file junk)).Holds cwd file)
    (same : ∀ kind p, (∃ b, found' kind (p, b)) ↔ ∃ b, found kind (p, b)) :
    Records (t.insert l (.file junk)) cwd (s.withBytes (t.leadsTo cwd l) junk) found' := by
  refine ⟨source, ?_, ?_, ?_⟩
  · intro g hg
    obtain ⟨f, hf, rfl⟩ := List.mem_map.mp hg
    obtain ⟨kind, known⟩ := h.spelled f hf
    obtain ⟨b, after⟩ := (same kind f.path).mpr ⟨_, known⟩
    have path : (f.withBytes (t.leadsTo cwd l) junk).path = f.path := f.path_withBytes
    have new : (t.insert l (.file junk)).Holds cwd (f.withBytes (t.leadsTo cwd l) junk).file :=
      Selected.holds_withBytes there (h.holds hf)
    have placed : b = (f.withBytes (t.leadsTo cwd l) junk).bytes :=
      (source kind _ after).unique new (congrArg Path.components path.symm)
    refine ⟨kind, ?_⟩
    rw [Selected.file, path, ← placed]
    exact after
  · rintro kind ⟨p, b⟩ known
    obtain ⟨old, before⟩ := (same kind p).mp ⟨b, known⟩
    obtain ⟨f, hf, here⟩ := h.complete kind _ before
    exact ⟨_, List.mem_map_of_mem hf, f.path_withBytes ▸ here⟩
  · intro g hg kind
    obtain ⟨f, hf, rfl⟩ := List.mem_map.mp hg
    rw [Selected.has_withBytes, Selected.path_withBytes, h.marks f hf kind]
    constructor
    · rintro ⟨⟨p, b⟩, known, here⟩
      obtain ⟨b', after⟩ := (same kind p).mpr ⟨b, known⟩
      exact ⟨_, after, here⟩
    · rintro ⟨⟨p, b⟩, known, here⟩
      obtain ⟨b', before⟩ := (same kind p).mp ⟨b, known⟩
      exact ⟨_, before, here⟩

theorem Selection.split_at (s : Selection) {f : Selected} (hf : f ∈ s.files) :
    ∃ before after, s.files = before ++ f :: after ∧
      ∀ g ∈ before ++ after, g.path.components ≠ f.path.components := by
  obtain ⟨before, after, split⟩ := List.append_of_mem hf
  refine ⟨before, after, split, ?_⟩
  have ascending := s.ascending
  rw [split] at ascending
  obtain ⟨_, rest, across⟩ := List.pairwise_append.mp ascending
  obtain ⟨least, _⟩ := List.pairwise_cons.mp rest
  intro g hg
  rcases List.mem_append.mp hg with hg | hg
  · exact Path.ne_of_order_lt (across g hg f List.mem_cons_self)
  · exact (Path.ne_of_order_lt (least g hg)).symm

end WithBytes

/-- `less` is what `whole` becomes when a file with a text, selected under some number of paths, is
none any more. -/
structure Scan.LosesFile (whole less : Scan) (gone : Path → Bool) (paths : Nat) : Prop where
  scanned : whole.scanned = less.scanned + paths
  skipped : less.skipped = whole.skipped + paths
  mentions : ∀ kind, less.mentions kind = (whole.mentions kind).filter fun m => !gone m.file

theorem Scan.losesFile_ofFiles {gone : Path → Bool} {junk : ByteArray} {files : List Selected}
    (reads : ∀ f ∈ files, gone f.path = true → isText f.file = true)
    (unread : String.fromUTF8? junk = none) :
    LosesFile (ofFiles files) (ofFiles (files.map (Selected.withBytes gone junk))) gone
      (files.countP fun f => gone f.path) := by
  obtain ⟨mentioned, scanned, skipped⟩ := ofFiles_spec files
  obtain ⟨mentioned', scanned', skipped'⟩ :=
    ofFiles_spec (files.map (Selected.withBytes gone junk))
  have text : ∀ f : Selected, isText (f.withBytes gone junk).file =
      (isText f.file && !gone f.path) := by
    intro f
    unfold Selected.withBytes
    split <;> simp_all [isText, Selected.file]
  have counts : files.countP (fun f => isText f.file) =
      files.countP (fun f => isText f.file && !gone f.path) + files.countP fun f => gone f.path := by
    clear mentioned scanned skipped mentioned' scanned' skipped'
    induction files with
    | nil => rfl
    | cons f files ih =>
      have rest := ih fun g hg => reads g (List.mem_cons_of_mem f hg)
      have own := reads f List.mem_cons_self
      simp only [List.countP_cons, rest]
      cases lost : gone f.path <;> cases is : isText f.file <;> simp_all <;> omega
  refine ⟨?_, ?_, ?_⟩
  · rw [scanned, scanned', List.countP_map, counts]
    simp only [Function.comp_def, text]
  · have whole := scanned_add_skipped files
    have less := scanned_add_skipped (files.map (Selected.withBytes gone junk))
    rw [scanned, counts] at whole
    rw [scanned', List.countP_map, List.length_map] at less
    simp only [Function.comp_def, text] at less
    omega
  · intro kind
    have gives : ∀ f : Selected, (f.withBytes gone junk).gives kind =
        (f.gives kind).filter fun m => !gone m.file := by
      intro f
      have kept : (f.gives kind).filter (fun m => !gone m.file) =
          (f.gives kind).filter fun _ => !gone f.path :=
        List.filter_congr fun m member => by rw [Selected.mem_gives member]
      rw [kept]
      cases lost : gone f.path with
      | false => simp [Selected.withBytes, lost]
      | true => simp [Selected.gives, Selected.withBytes, lost, mentionsIn, Selected.file, unread]
    rw [mentioned, mentioned', List.flatMap_map, List.filter_flatMap]
    exact List.flatMap_congr fun f _ => gives f

namespace Scanner

variable {s : Scanner} {t : FileTree} {cwd : Location} {folders : List Path} {c : Config}
  {l : Location} {bytes junk : ByteArray}

theorem finds_of_withinSize {search : Discovery.Search} {root m : Location} {b b' : ByteArray}
    (one : search.withinSize b = true) (other : search.withinSize b' = true) :
    search.finds root m b = search.finds root m b' := by
  unfold Discovery.Search.finds
  cases FileTree.below? root m with
  | none => rfl
  | some names => simp only [Discovery.Search.admits, one, other]

theorem withinSize_of_finds {search : Discovery.Search} {root m : Location} {b : ByteArray}
    (found : search.finds root m b = true) : search.withinSize b = true := by
  unfold Discovery.Search.finds at found
  split at found
  · simp only [Discovery.Search.admits, Bool.and_eq_true] at found
    exact found.1.1.1
  · cases found

theorem withinSize_iff {s : Scanner} {t : FileTree} {side : Side} {b : ByteArray} :
    ((s.discovery side).search t).withinSize b = true ↔ b.size ≤ 2 * 1024 * 1024 :=
  decide_eq_true_iff

theorem roots_insert (there : (l, bytes) ∈ t.files) (junk : ByteArray) :
    (t.insert l (.file junk)).roots cwd folders = t.roots cwd folders := by
  simp only [FileTree.roots, FileTree.resolve_insert there, FileTree.locate_insert there]

section

variable (wellFormed : t.WellFormed) (there : (l, bytes) ∈ t.files)

include wellFormed there

section

variable (plain : FileTree.NoIgnoreFile l) (fits : bytes.size ≤ 2 * 1024 * 1024)
  (small : junk.size ≤ 2 * 1024 * 1024)

include plain fits small

theorem reach_insert (side : Side) {root : Path} {base : Location}
    (leads : t.locate cwd root = .ok base) :
    ((s.discovery side).search (t.insert l (.file junk))).reach (t.insert l (.file junk)) root base =
      (((s.discovery side).search t).reach t root base).map (refilled (t.leadsTo cwd l) junk) := by
  have kept : ∀ file ∈ t.files, ((s.discovery side).search t).finds base
      (if file.1 = l then (l, junk) else file).1 (if file.1 = l then (l, junk) else file).2 =
        ((s.discovery side).search t).finds base file.1 file.2 := by
    rintro ⟨m, b⟩ member
    by_cases here : m = l
    · subst here
      rw [if_pos rfl, FileTree.bytes_unique member there]
      exact finds_of_withinSize (withinSize_iff.mpr small) (withinSize_iff.mpr fits)
    · rw [if_neg here]
  have walk : ((s.discovery side).search t).walk (t.insert l (.file junk)) base =
      (((s.discovery side).search t).walk t base).map fun file =>
        if file.1 = l then (l, junk) else file := by
    rw [Discovery.Search.walk, FileTree.files_insert there, List.filter_map]
    exact congrArg _ (List.filter_congr kept)
  rw [FileTree.search_insert there junk plain, Discovery.Search.reach, Discovery.Search.reach,
    walk, List.map_map, List.map_map]
  refine List.map_congr_left ?_
  rintro ⟨m, b⟩ found
  obtain ⟨member, names, split⟩ := exists_names_of_mem_select found
  obtain rfl : m = base ++ names := split
  have path := FileTree.locate_reached wellFormed leads member
  by_cases here : base ++ names = l
  · subst here
    simp [refilled, FileTree.leadsTo_iff.mpr path]
  · have apart : ¬ t.leadsTo cwd l (Discovery.pathFrom root base (base ++ names)) = true := by
      intro other
      exact here (Except.ok.inj (path.symm.trans (FileTree.leadsTo_iff.mp other)))
    simp [refilled, here, apart]

theorem selects_insert (side : Side) (p : Path) :
    (∃ b, s.Selects (t.insert l (.file junk)) cwd folders side (p, b)) ↔
      ∃ b, s.Selects t cwd folders side (p, b) := by
  simp only [Selects, FileTree.resolve_insert there, FileTree.locate_insert there]
  constructor
  · rintro ⟨b, folder, listed, base, leads, found⟩
    rw [reach_insert wellFormed there plain fits small side leads] at found
    obtain ⟨file, before, same⟩ := List.mem_map.mp found
    obtain rfl : file.1 = p := (path_refilled _ _ file).symm.trans (congrArg Prod.fst same)
    exact ⟨file.2, folder, listed, base, leads, before⟩
  · rintro ⟨b, folder, listed, base, leads, found⟩
    refine ⟨(refilled (t.leadsTo cwd l) junk (p, b)).2, folder, listed, base, leads, ?_⟩
    rw [reach_insert wellFormed there plain fits small side leads]
    exact List.mem_map.mpr ⟨(p, b), found, Prod.ext (path_refilled _ _ (p, b)) rfl⟩

theorem selected_insert :
    s.selected (t.insert l (.file junk)) (t.roots cwd folders) c =
      (s.selected t (t.roots cwd folders) c).withBytes (t.leadsTo cwd l) junk := by
  rw [selected_eq_ofFinds, selected_eq_ofFinds, ← Selection.ofFinds_refilled, finds, finds,
    List.map_flatMap]
  refine congrArg _ (List.flatMap_congr ?_)
  rintro ⟨root, base⟩ member
  obtain ⟨-, -, -, leads⟩ := mem_roots_iff.mp member
  simp only [reach_insert wellFormed there plain fits small _ leads, List.map_append, List.map_map,
    Function.comp_def]

theorem scan_insert :
    s.scan (t.insert l (.file junk)) cwd folders c = .ofFiles
      ((s.selected t (t.roots cwd folders) c).withBytes (t.leadsTo cwd l) junk).files := by
  rw [scan, roots_insert there, selected_insert wellFormed there plain fits small]

end

variable {text : String} (reads : String.fromUTF8? bytes = some text)
  (unread : String.fromUTF8? junk = none)

include reads unread

theorem losesFile_withBytes :
    (s.scan t cwd folders c).LosesFile
      (.ofFiles ((s.selected t (t.roots cwd folders) c).withBytes (t.leadsTo cwd l) junk).files)
      (t.leadsTo cwd l)
      ((s.selected t (t.roots cwd folders) c).files.countP fun f => t.leadsTo cwd l f.path) := by
  refine Scan.losesFile_ofFiles ?_ unread
  intro f hf here
  obtain ⟨m, leads, placed⟩ := (s.records_scan wellFormed cwd folders c).holds hf
  obtain rfl := Except.ok.inj (leads.symm.trans (FileTree.leadsTo_iff.mp here))
  rw [isText, FileTree.bytes_unique placed there, reads]
  rfl

end

theorem scan_insert_same (wellFormed : t.WellFormed) (there : (l, bytes) ∈ t.files)
    (same : ∀ kind p, (∃ b, s.Selects (t.insert l (.file junk)) cwd folders (c.side kind) (p, b)) ↔
      ∃ b, s.Selects t cwd folders (c.side kind) (p, b)) :
    (s.scan (t.insert l (.file junk)) cwd folders c).Same
      (.ofFiles ((s.selected t (t.roots cwd folders) c).withBytes (t.leadsTo cwd l) junk).files) := by
  have records := s.records_scan wellFormed cwd folders c
  have records' := s.records_scan (wellFormed.insert_file there junk) cwd folders c
  -- Which paths are selected says nothing of the spelling that comes first.
  exact Scan.ofFiles_same (Selection.unspelled_of_records records'
    (records.withBytes there records'.source same))

theorem countP_leadsTo (wellFormed : t.WellFormed)
    (straight : ∀ folder ∈ folders, t.Straight cwd folder) {kind : TagKind} {p : Path}
    (selected : s.Selects t cwd folders (c.side kind) (p, bytes)) (leads : t.locate cwd p = .ok l) :
    (s.selected t (t.roots cwd folders) c).files.countP (fun f => t.leadsTo cwd l f.path) = 1 := by
  have records := s.records_scan wellFormed cwd folders c
  have own : ∀ f ∈ (s.selected t (t.roots cwd folders) c).files, t.leadsTo cwd l f.path = true →
      f.path.components = (FileTree.pathOf l).components := by
    intro f hf here
    obtain ⟨k, known⟩ := records.spelled f hf
    exact components_of_selects wellFormed straight known (FileTree.leadsTo_iff.mp here)
  obtain ⟨f, hf, same⟩ := records.complete kind _ selected
  have here : t.leadsTo cwd l f.path = true := by
    obtain ⟨m, reached, -⟩ := records.holds hf
    rw [FileTree.leadsTo_iff, ← FileTree.locate_unique same reached leads]
    exact reached
  -- Paths are listed once by components, and without detours the location decides the components.
  obtain ⟨before, after, split, apart⟩ := Selection.split_at _ hf
  have none : ∀ g ∈ before ++ after, ¬ t.leadsTo cwd l g.path = true := by
    intro g hg there
    have member : g ∈ (s.selected t (t.roots cwd folders) c).files := by
      rw [split]
      rcases List.mem_append.mp hg with hg | hg
      · exact List.mem_append_left _ hg
      · exact List.mem_append_right _ (List.mem_cons_of_mem f hg)
    exact apart g hg ((own g member there).trans (own f hf here).symm)
  rw [split, List.countP_append,
    List.countP_cons_of_pos (p := fun f : Selected => t.leadsTo cwd l f.path) here,
    List.countP_eq_zero.mpr fun g hg => none g (List.mem_append_left after hg),
    List.countP_eq_zero.mpr fun g hg => none g (List.mem_append_right before hg)]

end Scanner

end RouteTags
