import RouteTags.Proofs.Scan.Unreadable

namespace RouteTags

namespace Scanner

variable {s : Scanner} {t : FileTree} {cwd : Location} {folders : List Path} {c : Config}

theorem mentions_scan (wellFormed : t.WellFormed) (s : Scanner) (cwd : Location)
    (folders : List Path) (c : Config) (kind : TagKind) :
    ∃ files, Listing files (fun file =>
        s.Selects t cwd folders (c.side kind) file ∧ isText file = true) ∧
      (∀ file ∈ files, ∃ k, s.Selects t cwd folders (c.side k) file) ∧
      (s.scan t cwd folders c).mentions kind = files.flatMap (mentionsIn kind) := by
  have records := s.records_scan wellFormed cwd folders c
  obtain ⟨mentioned, -, -⟩ := Scan.ofFiles_spec (s.selected t (t.roots cwd folders) c).files
  refine ⟨_, records.listing_kind kind, ?_, ?_⟩
  · intro file member
    obtain ⟨f, hf, rfl⟩ := List.mem_map.mp member
    exact records.spelled f (List.mem_of_mem_filter hf)
  · rw [← Selection.flatMap_gives]
    exact mentioned kind

theorem path_of_selects (wellFormed : t.WellFormed)
    (present : ∀ folder ∈ folders, t.pathExists cwd folder = true) {side : Side}
    {file : Path × ByteArray} (selected : s.Selects t cwd folders side file) :
    ∃ l, (l, file.2) ∈ t.files ∧ file.1 = FileTree.pathOf l := by
  obtain ⟨folder, listed, base, names, reached, -, there, path⟩ := exists_of_selects selected
  exact ⟨_, there, path.trans
    (Discovery.pathFrom_of_pathExists wellFormed (present folder listed) reached there)⟩

theorem eq_of_unspelled {files others : List Selected}
    (alike : ∀ f ∈ files, ∀ g ∈ others, f.path.components = g.path.components → f.path = g.path)
    (same : files.map Selected.unspelled = others.map Selected.unspelled) : files = others := by
  induction files generalizing others with
  | nil => exact (List.map_eq_nil_iff.mp same.symm).symm
  | cons f files ih =>
    obtain ⟨g, rest, rfl, here, later⟩ := List.map_eq_cons_iff.mp same.symm
    have tail := ih (fun f hf g hg => alike f (List.mem_cons_of_mem _ hf) g
      (List.mem_cons_of_mem _ hg)) later.symm
    simp only [Selected.unspelled, Prod.mk.injEq] at here
    obtain ⟨path, bytes, backend, frontend⟩ := here
    have spelled := alike f List.mem_cons_self g List.mem_cons_self path.symm
    rw [tail]
    cases f
    cases g
    simp_all

theorem outcome_eq_of_resolved (wellFormed : t.WellFormed) {others : List Path}
    (same : ∀ p, p ∈ folders.map (t.resolve cwd) ↔ p ∈ others.map (t.resolve cwd))
    (present : ∀ folder ∈ folders, t.pathExists cwd folder = true) :
    s.outcome t cwd folders c = s.outcome t cwd others c := by
  have one := s.records_scan wellFormed cwd folders c
  have two := s.records_scan wellFormed cwd others c
  have files := eq_of_unspelled ?_
    (unspelled_of_resolved same (s := s) (c := c) wellFormed)
  · rw [outcome, outcome, fault?_of_resolved same, scan, scan, files]
  · intro f hf g hg components
    obtain ⟨kind, known⟩ := one.spelled f hf
    obtain ⟨kind', known'⟩ := two.spelled g hg
    obtain ⟨l, there, path⟩ := path_of_selects wellFormed present known
    obtain ⟨m, there', path'⟩ := path_of_selects wellFormed present
      (selects_of_resolved (fun p => (same p).mpr) known')
    have path : f.path = FileTree.pathOf l := path
    have path' : g.path = FileTree.pathOf m := path'
    rw [path, path', ← Path.same_iff] at components
    rw [path, path', Path.eq_of_same_pathOf (wellFormed.proper_of_file there)
      (wellFormed.proper_of_file there') components]

end Scanner

/-- A scan is carried out unless a glob is nested too deeply. It then holds, for each kind, the
mentions of the paths that this side selects from some folder and that lead to text, each path once
and in path order, and counts every path that either side selects. The finds may come in any order
and number, and the folders too: what is selected is the same, up to the spelling of a path that is
found in several, and to the letter if the folders are there. Where no folder has detours, no two
paths lead to one file, and only a folder that is not there but leads to a file once it is made
absolute may have them. A selected file that stops being text takes
its own mentions away, leaves the others as they are, and is skipped under each of its paths. If it
tells what to ignore or outgrows what is read, this holds up to spelling as long as the same paths
are selected. -/
theorem scan_canonical {t : FileTree} (wellFormed : t.WellFormed) (s : Scanner) (cwd : Location)
    (folders : List Path) (c : Config) :
    ((∃ scan, s.outcome t cwd folders c = .ok scan) ↔
      folders = [] ∨ ∀ kind, (s.discovery (c.side kind)).Usable) ∧
    (∀ scan, s.outcome t cwd folders c = .ok scan →
      (∀ kind, ∃ files, Listing files (fun file =>
          s.Selects t cwd folders (c.side kind) file ∧ isText file = true) ∧
        (∀ file ∈ files, ∃ k, s.Selects t cwd folders (c.side k) file) ∧
        scan.mentions kind = files.flatMap (mentionsIn kind)) ∧
      (∃ files, Listing files (fun file => ∃ kind, s.Selects t cwd folders (c.side kind) file) ∧
        scan.scanned = files.countP isText ∧ scan.scanned + scan.skipped = files.length) ∧
      ∀ finds, (∀ kind file, (kind, file) ∈ finds ↔ s.Selects t cwd folders (c.side kind) file) →
        (Scan.ofFiles (Selection.ofFinds finds).files).Same scan) ∧
    (∀ others, (∀ p, p ∈ folders.map (t.resolve cwd) ↔ p ∈ others.map (t.resolve cwd)) →
      (∀ fault, s.outcome t cwd folders c = .error fault ↔ s.outcome t cwd others c = .error fault) ∧
      (∀ scan scan', s.outcome t cwd folders c = .ok scan → s.outcome t cwd others c = .ok scan' →
        scan.Same scan') ∧
      ((∀ folder ∈ folders, t.pathExists cwd folder = true) →
        s.outcome t cwd folders c = s.outcome t cwd others c)) ∧
    (∀ kind file, s.Selects t cwd folders (c.side kind) file → t.Holds cwd file) ∧
    ((∀ folder ∈ folders, t.Straight cwd folder) → ∀ kind kind' file other,
      s.Selects t cwd folders (c.side kind) file → s.Selects t cwd folders (c.side kind') other →
      ∀ l, t.locate cwd file.1 = .ok l → t.locate cwd other.1 = .ok l →
        file.1.same other.1 = true) ∧
    (t.get? cwd = some .folder → ∀ folder, (t.pathExists cwd folder = true ∨
        ∀ l bytes, t.lookup cwd (FileTree.absolute cwd folder) ≠ .ok (l, .file bytes)) →
      t.Straight cwd folder) ∧
    (∀ l bytes junk text scan, s.outcome t cwd folders c = .ok scan →
      (∃ kind p, s.Selects t cwd folders (c.side kind) (p, bytes) ∧ t.locate cwd p = .ok l) →
      String.fromUTF8? bytes = some text → String.fromUTF8? junk = none →
      ∃ paths,
        (∃ files, Listing files (fun file => ∃ kind, s.Selects t cwd folders (c.side kind) file) ∧
          paths = files.countP fun file => t.leadsTo cwd l file.1) ∧
        ((∀ folder ∈ folders, t.Straight cwd folder) → paths = 1) ∧
        ((∀ kind p, (∃ b, s.Selects (t.insert l (.file junk)) cwd folders (c.side kind) (p, b)) ↔
            ∃ b, s.Selects t cwd folders (c.side kind) (p, b)) →
          ∃ less other, s.outcome (t.insert l (.file junk)) cwd folders c = .ok less ∧
            less.Same other ∧ scan.LosesFile other (t.leadsTo cwd l) paths) ∧
        (FileTree.NoIgnoreFile l → junk.size ≤ 2 * 1024 * 1024 →
          (∀ kind p, (∃ b, s.Selects (t.insert l (.file junk)) cwd folders (c.side kind) (p, b)) ↔
            ∃ b, s.Selects t cwd folders (c.side kind) (p, b)) ∧
          ∃ less, s.outcome (t.insert l (.file junk)) cwd folders c = .ok less ∧
            scan.LosesFile less (t.leadsTo cwd l) paths)) := by
  have records := s.records_scan wellFormed cwd folders c
  refine ⟨?_, ?_, ?_, fun _ _ => Scanner.holds_of_selects wellFormed, ?_,
    fun home _ => FileTree.straight_of_no_file wellFormed home, ?_⟩
  · simp only [Scanner.outcome_eq_ok_iff, ← Scanner.fault?_eq_none_iff, exists_and_left,
      exists_eq', and_true]
  · intro scan done
    obtain ⟨_, rfl⟩ := Scanner.outcome_eq_ok_iff.mp done
    obtain ⟨-, scanned, -⟩ :=
      Scan.ofFiles_spec (s.selected t (t.roots cwd folders) c).files
    refine ⟨s.mentions_scan wellFormed cwd folders c, ?_,
      fun _ => Scanner.scan_same_of_finds wellFormed⟩
    refine ⟨_, records.listing, ?_, ?_⟩
    · rw [List.countP_map]
      exact scanned
    · rw [List.length_map]
      exact Scan.scanned_add_skipped _
  · intro others same
    refine ⟨?_, ?_, Scanner.outcome_eq_of_resolved wellFormed same⟩
    · intro fault
      rw [Scanner.outcome, Scanner.outcome, Scanner.fault?_of_resolved same]
      cases s.fault? others c <;> simp
    · intro scan scan' done done'
      obtain ⟨-, rfl⟩ := Scanner.outcome_eq_ok_iff.mp done
      obtain ⟨-, rfl⟩ := Scanner.outcome_eq_ok_iff.mp done'
      exact Scan.ofFiles_same (Scanner.unspelled_of_resolved same wellFormed)
  · intro straight kind kind' file other one two l leads leads'
    rw [Path.same_iff, Scanner.components_of_selects wellFormed straight one leads,
      Scanner.components_of_selects wellFormed straight two leads']
  · rintro l bytes junk text scan done ⟨kind, p, selected, leads⟩ reads unread
    obtain ⟨sound, rfl⟩ := Scanner.outcome_eq_ok_iff.mp done
    have there : (l, bytes) ∈ t.files := by
      obtain ⟨m, reached, placed⟩ := Scanner.holds_of_selects wellFormed selected
      rwa [Except.ok.inj (reached.symm.trans leads)] at placed
    have loses : (s.scan t cwd folders c).LosesFile _ (t.leadsTo cwd l) _ :=
      Scanner.losesFile_withBytes wellFormed there reads unread
    refine ⟨_, ⟨_, records.listing, ?_⟩,
      fun straight => Scanner.countP_leadsTo wellFormed straight selected leads, ?_, ?_⟩
    · rw [List.countP_map]
      rfl
    · intro same
      exact ⟨_, _, Scanner.outcome_eq_ok_iff.mpr ⟨sound, rfl⟩,
        Scanner.scan_insert_same wellFormed there same, loses⟩
    · intro plain small
      obtain ⟨_, _, _, _, _, found, _, _⟩ := Scanner.exists_of_selects selected
      have fits := Scanner.withinSize_iff.mp
        (Scanner.withinSize_of_finds (Scanner.mem_select_iff.mp found).2)
      refine ⟨fun kind p => Scanner.selects_insert wellFormed there plain fits small _ p,
        _, Scanner.outcome_eq_ok_iff.mpr ⟨sound, rfl⟩, ?_⟩
      rw [Scanner.scan_insert wellFormed there plain fits small]
      exact loses

def besideTree : FileTree where
  entries := [(["ws"], .folder),
    (["ws", "a.ts"], .file "// ENDPOINTER <backend> method: \"GET\", endpoint: \"/a\"".toUTF8),
    (["ws", "b"], .folder)]
  ascending := by decide +kernel

theorem scan_canonical_beside :
    besideTree.WellFormed ∧
    ∃ scan, Scanner.outcome {} besideTree [] [⟨"/ws"⟩, ⟨"/ws/a.ts"⟩] .everything = .ok scan ∧
      scan.backend.map (·.file) = [⟨"/ws/a.ts"⟩] ∧
      Scanner.outcome {} besideTree [] [⟨"/ws/a.ts"⟩, ⟨"/ws"⟩, ⟨"/ws"⟩] .everything = .ok scan := by
  have wellFormed : besideTree.WellFormed := by decide +kernel
  obtain ⟨-, -, permuted, -⟩ :=
    scan_canonical wellFormed {} [] [⟨"/ws"⟩, ⟨"/ws/a.ts"⟩] .everything
  have resolved : [⟨"/ws"⟩, ⟨"/ws/a.ts"⟩].map (besideTree.resolve []) =
      [⟨"/ws"⟩, ⟨"/ws/a.ts"⟩] := by decide +kernel
  have resolved' : [⟨"/ws/a.ts"⟩, ⟨"/ws"⟩, ⟨"/ws"⟩].map (besideTree.resolve []) =
      [⟨"/ws/a.ts"⟩, ⟨"/ws"⟩, ⟨"/ws"⟩] := by decide +kernel
  obtain ⟨-, -, exact⟩ := permuted [⟨"/ws/a.ts"⟩, ⟨"/ws"⟩, ⟨"/ws"⟩] (by
    rw [resolved, resolved']
    simp [or_comm])
  have done := Scanner.outcome_everything besideTree [] [⟨"/ws"⟩, ⟨"/ws/a.ts"⟩]
  exact ⟨wellFormed, _, done, by decide +kernel, (exact (by decide +kernel)).symm.trans done⟩

/-- A path that goes on behind a file keeps its detour, and the file is listed a second time. Two
slashes in front stay too, and then the folder that comes first decides how the path is spelled. -/
theorem scan_repeats_detour :
    (∃ scan, Scanner.outcome {} besideTree [] [⟨"/ws"⟩, ⟨"/ws/b/../a.ts/."⟩] .everything =
        .ok scan ∧
      scan.backend.map (·.file) = [⟨"/ws/a.ts"⟩, ⟨"/ws/b/../a.ts"⟩] ∧ scan.scanned = 2 ∧
      ∀ m ∈ scan.backend, besideTree.leadsTo [] ["ws", "a.ts"] m.file = true) ∧
    ∃ scan scan',
      Scanner.outcome {} besideTree [] [⟨"/ws"⟩, ⟨"//ws/a.ts/."⟩] .everything = .ok scan ∧
      Scanner.outcome {} besideTree [] [⟨"//ws/a.ts/."⟩, ⟨"/ws"⟩] .everything = .ok scan' ∧
      scan.backend.map (·.file) = [⟨"/ws/a.ts"⟩] ∧ scan'.backend.map (·.file) = [⟨"//ws/a.ts"⟩] := by
  have done := Scanner.outcome_everything besideTree []
  exact ⟨⟨_, done _, by decide +kernel⟩, _, _, done _, done _, by decide +kernel⟩

end RouteTags
