import RouteTags.Config.Store
import RouteTags.Proofs.Config.Paths
import RouteTags.Proofs.Config.Written
import RouteTags.Proofs.Files.Writing

namespace RouteTags

namespace Config

variable {t t' t₁ : FileTree} {cwd l : Location} {root p : Path} {c : Config}

/-- The folder of a configuration is there, made or not, and its file can be written. -/
structure Writable (t t₁ : FileTree) (cwd : Location) (root : Path) (l : Location) : Prop where
  gains : t.Gains t₁ cwd (root.join configFolder).components
  folder : ∃ k, t₁.locateComponents cwd (root.join configFolder).components = .ok k ∧
    t₁.get? k = some .folder
  leads : t₁.locate cwd (configPath root) = .ok l
  other : t₁.get? l ≠ some .folder

theorem save_cases (t : FileTree) (cwd : Location) (root : Path) (c : Config) :
    (∃ t₁ l, Writable t t₁ cwd root l ∧
      save t cwd root c = (t₁.insert l (.file c.fileText.toUTF8), .ok (configPath root))) ∨
    ∃ t' e, t.Gains t' cwd (root.join configFolder).components ∧
      save t cwd root c = (t', .error e) := by
  have content : (root.join configFolder).components ≠ [] := by
    simp [components_configFolder]
  obtain ⟨gains, found⟩ :=
    FileTree.ensureFolders_spec t cwd (root.join configFolder).components.reverse
  rw [List.reverse_reverse] at gains found
  unfold save FileTree.makeFolders
  cases made : t.ensureFolders cwd (root.join configFolder).components.reverse with
  | mk t₁ cause =>
    rw [made] at gains found
    cases cause with
    | some cause =>
      exact .inr ⟨t₁, .access (root.join configFolder) cause, gains, by simp only [made]⟩
    | none =>
      cases wrote : t₁.writeBytes cwd (configPath root) c.fileText.toUTF8 with
      | error cause =>
        exact .inr ⟨t₁, .access (configPath root) cause, gains, by simp only [made, wrote]⟩
      | ok t' =>
        obtain ⟨l, leads, other, rfl⟩ := FileTree.writeBytes_eq_ok_iff.mp wrote
        exact .inl ⟨t₁, l, ⟨gains, found rfl (by simpa using content), leads, other⟩,
          by simp only [made, wrote]⟩

theorem tryLoad_of_lookup
    (found : t.lookup cwd (configPath root) = .ok (l, .file c.fileText.toUTF8)) :
    tryLoad t cwd root = .ok (some c) := by
  have there : t.pathExists cwd (configPath root) = true := by
    rw [FileTree.pathExists, found]
    rfl
  simp only [tryLoad, there, FileTree.readBytes_of_lookup found, ofBytes_fileText]
  rfl

theorem save_of_lookup
    (found : t.lookup cwd (configPath root) = .ok (l, .file c.fileText.toUTF8))
    (folder : ∃ k, t.locateComponents cwd (root.join configFolder).components = .ok k ∧
      t.get? k = some .folder) :
    save t cwd root c = (t, .ok (configPath root)) := by
  obtain ⟨k, leads, here⟩ := folder
  have content : (root.join configFolder).components ≠ [] := by
    simp [components_configFolder]
  simp only [save, FileTree.makeFolders_of_folder content leads here,
    FileTree.writeBytes_of_lookup found]

namespace Writable

theorem lookup (writable : Writable t t₁ cwd root l) (bytes : ByteArray) :
    (t₁.insert l (.file bytes)).lookup cwd (configPath root) = .ok (l, .file bytes) :=
  FileTree.lookup_insert writable.leads writable.other

theorem folder_insert (writable : Writable t t₁ cwd root l) (bytes : ByteArray) :
    ∃ k, (t₁.insert l (.file bytes)).locateComponents cwd (root.join configFolder).components =
      .ok k ∧ (t₁.insert l (.file bytes)).get? k = some .folder := by
  obtain ⟨k, leads, here⟩ := writable.folder
  have keeps := FileTree.KeepsFolders.insert (n := .file bytes) writable.other
  exact ⟨k, keeps.leads leads, keeps k here⟩

end Writable

/-- A configuration that was saved is read back as it was, and saving what was read changes
nothing. -/
theorem save_round_trip (saved : save t cwd root c = (t', .ok p)) :
    p = configPath root ∧ t'.readBytes cwd p = .ok c.fileText.toUTF8 ∧
      tryLoad t' cwd root = .ok (some c) ∧
      ∀ c', tryLoad t' cwd root = .ok (some c') → save t' cwd root c' = (t', .ok p) := by
  rcases save_cases t cwd root c with ⟨t₁, l, writable, same⟩ | ⟨_, _, -, same⟩
  · rw [saved, Prod.mk.injEq, Except.ok.injEq] at same
    obtain ⟨rfl, rfl⟩ := same
    have found := writable.lookup c.fileText.toUTF8
    have loaded := tryLoad_of_lookup found
    refine ⟨rfl, FileTree.readBytes_of_lookup found, loaded, ?_⟩
    intro c' again
    rw [loaded, Except.ok.injEq, Option.some.injEq] at again
    rw [← again]
    exact save_of_lookup found (writable.folder_insert _)
  · rw [saved, Prod.mk.injEq] at same
    cases same.2

def oddConfig : Config :=
  ⟨⟨["a\"b\\c", "\x00\n\x1f"], []⟩, ⟨[""], [String.ofList [Char.ofNat 0x1F600, Char.ofNat 0x7F]]⟩⟩

theorem save_round_trip_odd :
    ∃ t', save .empty [] ⟨"ws/./app"⟩ oddConfig = (t', .ok (configPath ⟨"ws/./app"⟩)) ∧
      tryLoad t' [] ⟨"ws/./app"⟩ = .ok (some oddConfig) ∧
      save t' [] ⟨"ws/./app"⟩ oddConfig = (t', .ok (configPath ⟨"ws/./app"⟩)) := by
  have done : (save .empty [] ⟨"ws/./app"⟩ oddConfig).2.isOk = true := by decide +kernel
  cases saved : save .empty [] ⟨"ws/./app"⟩ oddConfig with
  | mk t' result =>
    rw [saved] at done
    cases result with
    | error e => cases done
    | ok p =>
      obtain ⟨rfl, -, loaded, again⟩ := save_round_trip saved
      exact ⟨t', rfl, loaded, again _ loaded⟩

end Config

end RouteTags
