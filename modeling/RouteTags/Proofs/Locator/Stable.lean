import RouteTags.Command.Run
import RouteTags.Proofs.Locator.RoundTrip

namespace RouteTags.Locator

theorem read_eq_ok_iff {input : String} {l : Locator} :
    read input = .ok l ↔
      dropDriveSlash (takeLine (dropScheme (Text.trim input.toList))).1 ≠ [] ∧
      l = ⟨Path.ofChars (dropDriveSlash (takeLine (dropScheme (Text.trim input.toList))).1),
        (takeLine (dropScheme (Text.trim input.toList))).2⟩ := by
  by_cases content : Text.trim input.toList = []
  · have empty : read input = .error .empty := by rw [read, content]
    rw [empty, content]
    constructor
    · intro reads
      cases reads
    · exact fun h => absurd rfl h.1
  · rw [read_eq content, ofParts_eq_ok_iff]

theorem append_of_splitScheme? {s before rest : List Char}
    (cut : splitScheme? s = some (before, rest)) : s = before ++ ("://".toList ++ rest) := by
  induction s generalizing before with
  | nil => cases cut
  | cons c s ih =>
    unfold splitScheme? at cut
    split at cut
    · rename_i marked
      cases cut
      rw [List.nil_append]
      exact Text.after?_eq_some_iff.mp marked
    · obtain ⟨⟨later, _⟩, found, same⟩ := Option.map_eq_some_iff.mp cut
      cases same
      rw [ih found, List.cons_append]

theorem dropScheme_suffix (s : List Char) : dropScheme s <:+ s := by
  unfold dropScheme
  split
  · exact List.suffix_rfl
  · rename_i before rest cut
    split
    · have behind : rest <:+ s := by
        rw [append_of_splitScheme? cut, ← List.append_assoc]
        exact List.suffix_append _ rest
      cases file : Text.after? "file".toList rest with
      | none => exact behind
      | some more =>
        rw [Text.after?_eq_some_iff.mp file] at behind
        exact (List.suffix_append _ more).trans behind
    · exact List.suffix_rfl

theorem dropDriveSlash_suffix (s : List Char) : dropDriveSlash s <:+ s := by
  unfold dropDriveSlash
  split
  · split
    · exact List.suffix_cons _ _
    · exact List.suffix_rfl
  · exact List.suffix_rfl

theorem not_slashDrive_dropDriveSlash (s : List Char) : ¬ SlashDrive (dropDriveSlash s) := by
  unfold dropDriveSlash
  split
  · rename_i rest
    split
    · rename_i drive
      exact not_slashDrive_of_hasDrive drive
    · rename_i undriven
      rintro ⟨c, more, split, letter⟩
      obtain ⟨_, rfl⟩ := List.cons.inj split
      exact undriven (hasDrive_iff.mpr ⟨c, more, rfl, letter⟩)
  · rename_i other
    rintro ⟨c, more, rfl, _⟩
    exact other _ rfl

theorem takeLine_of_snd_eq_none {s : List Char} (untaken : (takeLine s).2 = none) :
    (takeLine s).1 = s ∧ ¬ EndsInLine s := by
  refine ⟨by rw [takeLine_eq_self untaken], ?_⟩
  intro ends
  have taken := takeLine_isSome_iff.mpr ends
  rw [untaken] at taken
  cases taken

theorem travels_of_read {input : String} {l : Locator} (reads : read input = .ok l) :
    Travels l := by
  obtain ⟨nonempty, rfl⟩ := read_eq_ok_iff.mp reads
  have text : ∀ s, (Path.ofChars s).text.toList = s := fun s => String.toList_ofList
  refine ⟨?_, ?_, ?_⟩
  · exact text_ne_empty (by rwa [text])
  · rw [text]
    exact not_slashDrive_dropDriveSlash _
  · intro untaken
    obtain ⟨whole, unnumbered⟩ := takeLine_of_snd_eq_none untaken
    rw [text, whole]
    have suffix := dropDriveSlash_suffix (dropScheme (Text.trim input.toList))
    constructor
    · intro blank
      exact Text.not_endsBlank_trim _
        (Text.endsBlank_of_suffix (suffix.trans (dropScheme_suffix _)) blank)
    · intro ends
      obtain ⟨front, split⟩ := suffix
      apply unnumbered
      rw [← split]
      exact endsInLine_append front ends

theorem runTask_locate (t : FileTree) (cwd : Location) (scheme : Scheme) (folders : List Path)
    (root : Path) {text : String} {l : Locator} (reads : read text = .ok l) :
    Command.runTask t cwd scheme folders root (.locate text) =
      (t, .ok (.locate l (scheme.write l))) := by
  rw [Command.runTask, reads]

/-- What was read from any text, and is written with a scheme of the right form, is read again to
the letter. So the locate command, run on the text that it shows, does what it did before. -/
theorem read_write_of_read {scheme : Scheme} (valid : isScheme scheme.name.toList = true) :
    (∀ input l, read input = .ok l → read (scheme.write l) = .ok l) ∧
    (∀ t cwd folders root input l encoded,
      (Command.runTask t cwd scheme folders root (.locate input)).2 = .ok (.locate l encoded) →
      Command.runTask t cwd scheme folders root (.locate encoded) =
        Command.runTask t cwd scheme folders root (.locate input)) := by
  have again : ∀ input l, read input = .ok l → read (scheme.write l) = .ok l :=
    fun input l reads => read_write_of_travels valid (travels_of_read reads)
  refine ⟨again, ?_⟩
  intro t cwd folders root input l encoded shown
  cases reads : read input with
  | error e =>
    rw [Command.runTask, reads] at shown
    cases shown
  | ok m =>
    rw [runTask_locate t cwd scheme folders root reads] at shown ⊢
    cases shown
    exact runTask_locate t cwd scheme folders root (again input l reads)

theorem read_write_of_read_foreign :
    isScheme "zed".toList = true ∧
    read " idea://fileC:\\x:99999999999\t" = .ok ⟨⟨"C:\\x:99999999999"⟩, none⟩ ∧
    read ((Scheme.mk "zed").write ⟨⟨"C:\\x:99999999999"⟩, none⟩) =
      .ok ⟨⟨"C:\\x:99999999999"⟩, none⟩ := by
  have valid : isScheme (Scheme.mk "zed").name.toList = true := by decide
  have reads : read " idea://fileC:\\x:99999999999\t" = .ok ⟨⟨"C:\\x:99999999999"⟩, none⟩ := by
    exact read_eq_ok_iff.mpr ⟨by decide +kernel, by decide +kernel⟩
  exact ⟨valid, reads, (read_write_of_read valid).1 _ _ reads⟩

end RouteTags.Locator
