import RouteTags.Command.Run
import RouteTags.Proofs.Config.Saved
import RouteTags.Proofs.Files.Joined
import RouteTags.Proofs.Scan.Canonical
import RouteTags.Proofs.Selection.Excluded

namespace RouteTags.Config

open FileTree (startOf)

variable {t t' t₁ later : FileTree} {cwd l base : Location} {root : Path} {c : Config}

namespace Writable

theorem location_eq (writable : Writable t t₁ cwd root l) (leads : later.locate cwd root = .ok base) :
    l = base ++ configNames := by
  obtain ⟨steps, -, own, joined⟩ := FileTree.exists_steps root
  have whole := writable.leads
  rw [configPath_eq, joined configNames properName_config (List.cons_ne_nil _ _)] at whole
  obtain ⟨b, reached, inside⟩ := FileTree.leads_append_iff.mp whole
  rw [FileTree.eq_of_leads_names inside, FileTree.eq_of_leads reached (own later cwd base leads)]

theorem get?_eq_none (writable : Writable t t₁ cwd root l) (wellFormed : t.WellFormed)
    (climbs : t.Climbs (startOf cwd root) root.components)
    (absent : t.pathExists cwd (configPath root) = false) : t.get? l = none := by
  obtain ⟨steps, components, -, joined⟩ := FileTree.exists_steps root
  have leads := joined configNames properName_config (List.cons_ne_nil _ _)
  have whole := writable.leads
  rw [configPath_eq, leads] at whole
  obtain ⟨b, reached, inside⟩ := FileTree.leads_append_iff.mp whole
  obtain rfl := FileTree.eq_of_leads_names inside
  cases there : t.get? (b ++ configNames) with
  | none => rfl
  | some n =>
    -- What is there lies in a folder, to which the root led before, so it would have been found.
    have folder := wellFormed.folder_front there (List.cons_ne_nil _ _)
    rw [← components] at climbs
    have before := FileTree.leads_back wellFormed climbs reached folder
    have found : t.locate cwd (configPath root) = .ok (b ++ configNames) := by
      rw [configPath_eq, leads]
      exact FileTree.leads_append_iff.mpr ⟨b, before, FileTree.leads_names wellFormed there⟩
    rw [FileTree.pathExists, FileTree.lookup_eq_ok_iff.mpr ⟨found, there⟩] at absent
    cases absent

end Writable

/-- A configuration without rules was written at a location. All else that was there is there
still, and all else that is new is a folder on the way. -/
structure Created (t t' : FileTree) (cwd : Location) (root : Path) (l : Location) : Prop where
  found : t'.lookup cwd (configPath root) = .ok (l, .file everything.fileText.toUTF8)
  kept : ∀ m n, m ≠ l → t.get? m = some n → t'.get? m = some n
  made : ∀ m, m ≠ l → t.get? m = none → t'.get? m = none ∨
    t'.get? m = some .folder ∧ ∃ front, front <+: (root.join configFolder).components ∧
      t'.locateComponents cwd front = .ok m

theorem Writable.created (writable : Writable t t₁ cwd root l) :
    Created t (t₁.insert l (.file everything.fileText.toUTF8)) cwd root l := by
  have below := FileTree.below_top writable.other
  have keeps := FileTree.KeepsFolders.insert (n := .file everything.fileText.toUTF8) writable.other
  refine ⟨writable.lookup _, ?_, ?_⟩
  · intro m n apart there
    rw [FileTree.get?_insert below, if_neg apart]
    exact writable.gains.kept m n there
  · intro m apart nothing
    rw [FileTree.get?_insert below, if_neg apart]
    refine (writable.gains.made m nothing).imp_right ?_
    rintro ⟨folder, front, onTheWay, leads⟩
    exact ⟨folder, front, onTheWay, keeps.leads leads⟩

theorem not_selected {d : Discovery} (standard : d.standardExcludes = true) {bytes : ByteArray} :
    (base ++ configNames, bytes) ∉ d.select later base := by
  intro selected
  have hidden : Excludes.Hides configNames := .inl ⟨".endpointer", by decide, by decide⟩
  exact Discovery.not_hides_of_mem_select standard properName_config selected hidden

theorem Writable.not_discovered (writable : Writable t t₁ cwd root l) {d : Discovery}
    (standard : d.standardExcludes = true) (wellFormed : later.WellFormed) {found : List Path}
    (discovered : d.discover later cwd root = .ok found) :
    ∀ p ∈ found, later.locate cwd p ≠ .ok l := by
  intro p member leads
  obtain ⟨base, reached, ⟨m, bytes⟩, selected, rfl⟩ :=
    Discovery.exists_of_discover discovered member
  obtain ⟨there, names, rfl⟩ := Scanner.exists_names_of_mem_select selected
  have own := FileTree.locate_pathFrom (wellFormed.proper_below there) reached leads
  rw [writable.location_eq reached] at own
  rw [← own] at selected
  exact not_selected standard selected

theorem tryLoad_of_absent (absent : t.pathExists cwd (configPath root) = false) :
    tryLoad t cwd root = .ok none := by
  simp only [tryLoad, absent, Bool.not_false, if_true]

theorem load_of_absent (absent : t.pathExists cwd (configPath root) = false) :
    load t cwd root = ((save t cwd root everything).1, everything) := by
  unfold load
  rw [tryLoad_of_absent absent]

theorem load_of_some (found : tryLoad t cwd root = .ok (some c)) : load t cwd root = (t, c) := by
  unfold load
  rw [found]

theorem load_of_error {e : ConfigError} (failed : tryLoad t cwd root = .error e) :
    load t cwd root = (t, everything) := by
  unfold load
  rw [failed]

theorem load_of_exists (there : t.pathExists cwd (configPath root) = true) :
    (∃ bytes c, t.readBytes cwd (configPath root) = .ok bytes ∧ ofBytes bytes = .ok c ∧
      tryLoad t cwd root = .ok (some c) ∧ load t cwd root = (t, c)) ∨
    (∀ bytes c, t.readBytes cwd (configPath root) = .ok bytes → ofBytes bytes ≠ .ok c) ∧
      (∃ e, tryLoad t cwd root = .error e) ∧ load t cwd root = (t, everything) := by
  cases read : t.readBytes cwd (configPath root) with
  | error cause =>
    have failed : tryLoad t cwd root = .error (.access (configPath root) cause) := by
      simp [tryLoad, there, read]
    exact .inr ⟨fun _ _ found => (by cases found), ⟨_, failed⟩, load_of_error failed⟩
  | ok bytes =>
    cases parsed : ofBytes bytes with
    | ok c =>
      have found : tryLoad t cwd root = .ok (some c) := by simp [tryLoad, there, read, parsed]
      exact .inl ⟨bytes, c, rfl, parsed, found, load_of_some found⟩
    | error fault =>
      have failed : tryLoad t cwd root = .error (.malformed (configPath root) fault) := by
        simp [tryLoad, there, read, parsed]
      refine .inr ⟨?_, ⟨_, failed⟩, load_of_error failed⟩
      intro bytes' c same parses
      cases same
      rw [parsed] at parses
      cases parses

theorem createConfig_cases (t : FileTree) (cwd : Location) (root : Path) :
    (t.pathExists cwd (configPath root) = true ∧ ∃ result,
      Command.createConfig t cwd root = (t, result) ∧ ∀ p, result ≠ .ok (.init p true)) ∨
    t.pathExists cwd (configPath root) = false ∧
      ((∃ t', save t cwd root everything = (t', .ok (configPath root)) ∧
        Command.createConfig t cwd root = (t', .ok (.init (configPath root) true))) ∨
      ∃ t' e, save t cwd root everything = (t', .error e) ∧
        Command.createConfig t cwd root = (t', .error (.config e))) := by
  unfold Command.createConfig
  cases there : t.pathExists cwd (configPath root) with
  | true =>
    rcases load_of_exists there with ⟨_, c, -, -, tried, -⟩ | ⟨-, ⟨e, tried⟩, -⟩
    · rw [tried]
      exact .inl ⟨rfl, _, rfl, fun p same => by cases same⟩
    · rw [tried]
      exact .inl ⟨rfl, _, rfl, fun p same => by cases same⟩
  | false =>
    rw [tryLoad_of_absent there]
    rcases save_cases t cwd root everything with ⟨t₁, l, -, saved⟩ | ⟨t', e, -, saved⟩
    · exact .inr ⟨rfl, .inl ⟨_, saved, by rw [saved]⟩⟩
    · exact .inr ⟨rfl, .inr ⟨t', e, saved, by rw [saved]⟩⟩

theorem Created.again (created : Created t t' cwd root l) :
    tryLoad t' cwd root = .ok (some everything) ∧ load t' cwd root = (t', everything) :=
  have loaded := tryLoad_of_lookup created.found
  ⟨loaded, load_of_some loaded⟩

/-- Loading leaves what is there as it is. A configuration that is missing is created with folders
on the way to it, and is then the one that is loaded; or the folder or the file cannot be made, and
then nothing is lost. Nothing is lost either way, if no `..` of the root comes behind what is no
folder yet. No search that keeps to the standard excludes ever finds the file from the root. The
command creates the same file, and says so exactly when it did. -/
theorem load_spares (wellFormed : t.WellFormed) (cwd : Location) (root : Path) :
    (t.pathExists cwd (configPath root) = true →
      (load t cwd root).1 = t ∧
      (∀ bytes c, t.readBytes cwd (configPath root) = .ok bytes → ofBytes bytes = .ok c →
        (load t cwd root).2 = c) ∧
      ((∀ bytes c, t.readBytes cwd (configPath root) = .ok bytes → ofBytes bytes ≠ .ok c) →
        (load t cwd root).2 = everything)) ∧
    (t.pathExists cwd (configPath root) = false →
      (load t cwd root).2 = everything ∧
      ((∃ l, Created t (load t cwd root).1 cwd root l ∧
          (t.Climbs (startOf cwd root) root.components → t.get? l = none) ∧
          tryLoad (load t cwd root).1 cwd root = .ok (some everything) ∧
          load (load t cwd root).1 cwd root = ((load t cwd root).1, everything) ∧
          ∀ (d : Discovery) later found, d.standardExcludes = true → later.WellFormed →
            d.discover later cwd root = .ok found → ∀ p ∈ found, later.locate cwd p ≠ .ok l) ∨
        (∃ e, (save t cwd root everything).2 = .error e) ∧
          t.Gains (load t cwd root).1 cwd (root.join configFolder).components)) ∧
    (Command.createConfig t cwd root).1 = (load t cwd root).1 ∧
    (∀ p, (Command.createConfig t cwd root).2 = .ok (.init p true) ↔ p = configPath root ∧
      t.pathExists cwd (configPath root) = false ∧
        ∃ q, (save t cwd root everything).2 = .ok q) ∧
    ∀ e, tryLoad t cwd root = .error e →
      Command.createConfig t cwd root = (t, .error (.config e)) := by
  refine ⟨?_, ?_, ?_, ?_, ?_⟩
  · intro there
    rcases load_of_exists there with ⟨bytes, c, read, parsed, -, loaded⟩ | ⟨invalid, -, loaded⟩
    · rw [loaded]
      refine ⟨rfl, ?_, fun invalid => absurd parsed (invalid bytes c read)⟩
      intro bytes' c' read' parsed'
      obtain rfl := Except.ok.inj (read.symm.trans read')
      exact Except.ok.inj (parsed.symm.trans parsed')
    · rw [loaded]
      exact ⟨rfl, fun bytes c read parsed => absurd parsed (invalid bytes c read), fun _ => rfl⟩
  · intro absent
    rw [load_of_absent absent]
    refine ⟨rfl, ?_⟩
    rcases save_cases t cwd root everything with ⟨t₁, l, writable, saved⟩ | ⟨t', e, gains, saved⟩
    · rw [saved]
      have created := writable.created
      refine .inl ⟨l, created, fun climbs => writable.get?_eq_none wellFormed climbs absent,
        created.again.1, created.again.2, ?_⟩
      exact fun d later found standard wellFormed => writable.not_discovered standard wellFormed
    · rw [saved]
      exact .inr ⟨⟨e, rfl⟩, gains⟩
  · rcases createConfig_cases t cwd root with ⟨there, _, same, -⟩ | ⟨absent, created⟩
    · rw [same]
      rcases load_of_exists there with ⟨_, _, -, -, -, loaded⟩ | ⟨-, -, loaded⟩ <;> rw [loaded]
    · rw [load_of_absent absent]
      rcases created with ⟨t', saved, same⟩ | ⟨t', e, saved, same⟩ <;> rw [same, saved]
  · intro p
    rcases createConfig_cases t cwd root with
      ⟨there, _, same, other⟩ | ⟨absent, ⟨t', saved, same⟩ | ⟨t', e, saved, same⟩⟩
    · simp [same, there, other p]
    · simp [same, absent, saved, eq_comm]
    · simp [same, saved]
  · intro e fault
    unfold Command.createConfig
    rw [fault]

def freshTree : FileTree := ⟨[(["ws"], .folder)], by decide +kernel⟩

theorem load_spares_fresh : ∃ l,
    Created freshTree (load freshTree [] ⟨"/ws/../ws/"⟩).1 [] ⟨"/ws/../ws/"⟩ l ∧
      freshTree.get? l = none ∧
      tryLoad (load freshTree [] ⟨"/ws/../ws/"⟩).1 [] ⟨"/ws/../ws/"⟩ = .ok (some everything) := by
  have wellFormed : freshTree.WellFormed := by decide +kernel
  have absent : freshTree.pathExists [] (configPath ⟨"/ws/../ws/"⟩) = false := by decide +kernel
  have leads : freshTree.locate [] ⟨"/ws/../ws/"⟩ = .ok ["ws"] := by decide +kernel
  have saved : (save freshTree [] ⟨"/ws/../ws/"⟩ everything).2.isOk = true := by decide +kernel
  obtain ⟨-, ⟨l, created, spared, loaded, -⟩ | ⟨⟨e, failed⟩, -⟩⟩ :=
    (load_spares wellFormed [] ⟨"/ws/../ws/"⟩).2.1 absent
  · exact ⟨l, created, spared (FileTree.climbs_of_locate leads), loaded⟩
  · rw [failed] at saved
    cases saved

def halfEditedTree : FileTree where
  entries := [(["b"], .folder), (["b", ".endpointer"], .folder),
    (["b", ".endpointer", "config.json"], .file "\x7b half-edited".toUTF8)]
  ascending := by decide +kernel

theorem load_overwrites :
    halfEditedTree.WellFormed ∧
    halfEditedTree.readBytes [] ⟨"b/.endpointer/config.json"⟩ = .ok "\x7b half-edited".toUTF8 ∧
    (load halfEditedTree [] ⟨"missing/../b"⟩).1.readBytes [] ⟨"b/.endpointer/config.json"⟩ =
      .ok everything.fileText.toUTF8 ∧
    everything.fileText.toUTF8 ≠ "\x7b half-edited".toUTF8 := by
  decide +kernel

end RouteTags.Config
