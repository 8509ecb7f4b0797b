import RouteTags.Proofs.Locator.Stages

/-! Which locators survive being written and read. Without a line, what the path ends in can be
taken for blanks around the text or for a line; with a line, only a slash in front of a drive is
lost. -/
namespace RouteTags.Locator

def RoundTrips (scheme : Scheme) (l : Locator) : Prop :=
  ∃ m, read (scheme.write l) = .ok m ∧ m.same l = true

/-- The conditions on the path and the line alone, whatever the scheme. -/
structure Travels (l : Locator) : Prop where
  named : l.path.text ≠ ""
  rooted : ¬ SlashDrive l.path.text.toList
  ending : l.line = none →
    ¬ Text.EndsBlank l.path.text.toList ∧ ¬ EndsInLine l.path.text.toList

theorem ofChars_toList (path : Path) : Path.ofChars path.text.toList = path := by
  rw [Path.ofChars, String.ofList_toList]

theorem same_iff {l m : Locator} :
    l.same m = true ↔ l.path.components = m.path.components ∧ l.line = m.line := by
  simp [Locator.same, Path.same]

theorem components_ne_of_drive {rest blanks : List Char} (drive : hasDrive rest = true) :
    (Path.ofChars rest).components ≠ (Path.ofChars ('/' :: rest ++ blanks)).components := by
  intro same
  have root := (Path.root_mem_components_iff ('/' :: rest ++ blanks)).mpr rfl
  rw [← same, Path.root_mem_components_iff] at root
  obtain ⟨c, more, rfl, letter⟩ := hasDrive_iff.mp drive
  cases root
  cases letter

theorem kept_of_same {path blanks : List Char}
    (same : (Path.ofChars (dropDriveSlash (driveSlash path ++ path))).components =
      (Path.ofChars (path ++ blanks)).components) :
    ¬ SlashDrive path ∧ dropDriveSlash (driveSlash path ++ path) = path := by
  rcases dropDriveSlash_driveSlash path with ⟨_, rest, rfl, drive, dropped⟩ | kept
  · rw [dropped] at same
    exact absurd same (components_ne_of_drive drive)
  · exact kept

theorem text_ne_empty {path : Path} (nonempty : path.text.toList ≠ []) : path.text ≠ "" := by
  intro empty
  rw [empty] at nonempty
  exact nonempty rfl

theorem travels_of_line {scheme : Scheme} (valid : isScheme scheme.name.toList = true)
    {path : Path} {line : UInt32} (trip : RoundTrips scheme ⟨path, some line⟩) :
    Travels ⟨path, some line⟩ := by
  obtain ⟨m, reads, same⟩ := trip
  rw [read_write valid, takeLine_body_line, ofParts_eq_ok_iff] at reads
  obtain ⟨nonempty, rfl⟩ := reads
  have components :
      (Path.ofChars (dropDriveSlash (driveSlash path.text.toList ++ path.text.toList))).components =
        (Path.ofChars (path.text.toList ++ [])).components := by
    rw [List.append_nil, ofChars_toList]
    exact (same_iff.mp same).1
  obtain ⟨rooted, kept⟩ := kept_of_same components
  refine ⟨text_ne_empty ?_, rooted, ?_⟩
  · rw [← kept]
    exact nonempty
  · intro absent
    cases absent

theorem takeLine_eq_self {s : List Char} (untaken : (takeLine s).2 = none) :
    takeLine s = (s, none) := by
  rcases takeLine_cases s with ⟨_, _, _, _, _, taking⟩ | left
  · rw [taking] at untaken
    cases untaken
  · exact left

theorem endsInLine_append {s : List Char} (before : List Char) (ends : EndsInLine s) :
    EndsInLine (before ++ s) := by
  obtain ⟨front, digits, rfl, number⟩ := ends
  exact ⟨before ++ front, digits, (List.append_assoc before front _).symm, number⟩

theorem endsInLine_of_driveSlash {path : List Char} (ends : EndsInLine (driveSlash path ++ path)) :
    EndsInLine path := by
  unfold driveSlash at ends
  split at ends
  · obtain ⟨front, digits, split, number⟩ := ends
    cases front with
    | nil => cases split
    | cons c front => exact ⟨front, digits, (List.cons.inj split).2, number⟩
  · exact ends

theorem whole_of_same {path : List Char}
    (untaken : (takeLine (driveSlash path ++ Text.trimRight path)).2 = none)
    (same : (Path.ofChars (dropDriveSlash (driveSlash path ++ Text.trimRight path))).components =
      (Path.ofChars path).components) :
    ¬ SlashDrive path ∧ ¬ Text.EndsBlank path ∧ ¬ EndsInLine path := by
  have slash : driveSlash path = driveSlash (Text.trimRight path) := by
    rw [driveSlash, driveSlash, hasDrive_trimRight]
  obtain ⟨blanks, _, whole⟩ := Text.exists_trimRight path
  obtain ⟨rooted, kept⟩ : ¬ SlashDrive (Text.trimRight path) ∧ dropDriveSlash (driveSlash path ++
      Text.trimRight path) = Text.trimRight path := by
    rw [slash] at same ⊢
    exact kept_of_same (same.trans (congrArg _ (congrArg _ whole)))
  have solid : ¬ Text.EndsBlank path := by
    intro blank
    obtain ⟨more, nonempty, all, split⟩ := Text.exists_trimRight_of_endsBlank blank
    rw [kept] at same
    apply Path.components_append_blanks (Text.trimRight path) nonempty all
    rw [← split, same]
  rw [Text.trimRight_eq_self solid] at untaken rooted
  refine ⟨rooted, solid, ?_⟩
  intro ends
  have taken := takeLine_isSome_iff.mpr (endsInLine_append (driveSlash path) ends)
  rw [untaken] at taken
  cases taken

theorem travels_of_no_line {scheme : Scheme} (valid : isScheme scheme.name.toList = true)
    {path : Path} (trip : RoundTrips scheme ⟨path, none⟩) : Travels ⟨path, none⟩ := by
  obtain ⟨m, reads, same⟩ := trip
  rw [read_write valid, trimRight_body_none, ofParts_eq_ok_iff] at reads
  obtain ⟨nonempty, rfl⟩ := reads
  obtain ⟨components, untaken⟩ := same_iff.mp same
  have left := takeLine_eq_self untaken
  simp only [left] at nonempty components untaken
  have place : path.components = (Path.ofChars path.text.toList).components := by
    rw [ofChars_toList]
  obtain ⟨rooted, solid, unnumbered⟩ := whole_of_same (left ▸ rfl) (components.trans place)
  refine ⟨?_, rooted, fun _ => ⟨solid, unnumbered⟩⟩
  intro (empty : path.text = "")
  rw [empty] at nonempty
  exact nonempty rfl

theorem read_write_of_travels {scheme : Scheme} (valid : isScheme scheme.name.toList = true)
    {l : Locator} (travels : Travels l) : read (scheme.write l) = .ok l := by
  obtain ⟨path, line⟩ := l
  obtain ⟨named, rooted, ending⟩ := travels
  have kept : dropDriveSlash (driveSlash path.text.toList ++ path.text.toList) =
      path.text.toList := by
    rcases dropDriveSlash_driveSlash path.text.toList with ⟨drive, _⟩ | ⟨_, kept⟩
    · exact absurd drive rooted
    · exact kept
  have parts : takeLine (Text.trimRight (body ⟨path, line⟩)) =
      (driveSlash path.text.toList ++ path.text.toList, line) := by
    cases line with
    | some line => exact takeLine_body_line path line
    | none =>
      obtain ⟨solid, unnumbered⟩ := ending rfl
      rw [trimRight_body_none, Text.trimRight_eq_self solid]
      apply takeLine_eq_self
      cases taken : (takeLine (driveSlash path.text.toList ++ path.text.toList)).2 with
      | none => rfl
      | some line =>
        have ends := takeLine_isSome_iff.mp (Option.isSome_of_eq_some taken)
        exact absurd (endsInLine_of_driveSlash ends) unnumbered
  rw [read_write valid, parts, ofParts_eq_ok_iff, kept, ofChars_toList]
  refine ⟨?_, rfl⟩
  intro empty
  exact named (String.toList_eq_nil_iff.mp empty)

theorem roundTrips_of_travels {scheme : Scheme} (valid : isScheme scheme.name.toList = true)
    {l : Locator} (travels : Travels l) : RoundTrips scheme l :=
  ⟨l, read_write_of_travels valid travels, same_iff.mpr ⟨rfl, rfl⟩⟩

theorem not_slashDrive_of_hasDrive {s : List Char} (drive : hasDrive s = true) :
    ¬ SlashDrive s := by
  obtain ⟨c, rest, rfl, letter⟩ := hasDrive_iff.mp drive
  rintro ⟨_, _, split, _⟩
  obtain ⟨rfl, _⟩ := List.cons.inj split
  cases letter

/-- Written with a valid scheme, exactly the locators that travel are read as the same place. With
a line, these are all on rooted paths but those of a slash and a drive, and all on paths that start
with a drive. -/
theorem roundTrips_iff {scheme : Scheme} (valid : isScheme scheme.name.toList = true) :
    (∀ l, RoundTrips scheme l ↔ Travels l) ∧
    (∀ (path : Path) (line : UInt32),
      path.isAbsolute = true ∧ ¬ SlashDrive path.text.toList ∨
        hasDrive path.text.toList = true → RoundTrips scheme ⟨path, some line⟩) := by
  have exact_set : ∀ l, RoundTrips scheme l ↔ Travels l := by
    rintro ⟨path, line⟩
    refine ⟨fun trip => ?_, roundTrips_of_travels valid⟩
    cases line with
    | none => exact travels_of_no_line valid trip
    | some line => exact travels_of_line valid trip
  refine ⟨exact_set, ?_⟩
  intro path line shape
  have unlined : ∀ {P : Prop}, some line = none → P := fun absent => by cases absent
  refine (exact_set _).mpr ⟨?_, ?_, unlined⟩
  · intro (empty : path.text = "")
    rcases shape with ⟨rooted, _⟩ | drive
    · rw [Path.isAbsolute, empty] at rooted
      cases rooted
    · rw [empty] at drive
      cases drive
  · rcases shape with ⟨_, rooted⟩ | drive
    · exact rooted
    · exact not_slashDrive_of_hasDrive drive

theorem roundTrips_vscode :
    isScheme Scheme.standard.name.toList = true ∧
    RoundTrips .standard ⟨⟨"C:/work/app.ts"⟩, some 12⟩ ∧
    ¬ RoundTrips .standard ⟨⟨"/C:/work/app.ts"⟩, some 12⟩ ∧
    ¬ RoundTrips .standard ⟨⟨"/work/app.ts:12"⟩, none⟩ := by
  have valid : isScheme Scheme.standard.name.toList = true := by decide
  have drive : hasDrive "C:/work/app.ts".toList = true := by decide
  refine ⟨valid, (roundTrips_iff valid).2 _ 12 (.inr drive), ?_, ?_⟩
  · intro trip
    exact (((roundTrips_iff valid).1 _).mp trip).rooted ⟨'C', "/work/app.ts".toList, rfl, rfl⟩
  · intro trip
    obtain ⟨_, unnumbered⟩ := (((roundTrips_iff valid).1 _).mp trip).ending rfl
    have digit : ∀ c ∈ "12".toList, c.isDigit = true := List.all_eq_true.mp (by decide)
    exact unnumbered ⟨"/work/app.ts".toList, "12".toList, rfl, by decide, digit, by decide⟩

end RouteTags.Locator
