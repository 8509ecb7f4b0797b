import RouteTags.Proofs.Locator.Spellings
import RouteTags.Proofs.Path.Join

namespace RouteTags.Locator

theorem exists_front_of_colon {u v w x : List Char} (colonless : ':' ∉ v)
    (split : u ++ ':' :: x = v ++ w) : ∃ front, u = v ++ front ∧ w = front ++ ':' :: x := by
  rcases List.append_eq_append_iff.mp split with ⟨front, rfl, rest⟩ | ⟨front, rfl, rest⟩
  · cases front with
    | nil => exact ⟨[], by simp, rest.symm⟩
    | cons c front =>
      obtain ⟨rfl, -⟩ := List.cons.inj rest
      exact absurd (List.mem_append_right u List.mem_cons_self) colonless
  · exact ⟨front, rfl, rest⟩

theorem exists_dropScheme {scheme : List Char} (invalid : isScheme scheme = false)
    (s : List Char) :
    ∃ front, dropScheme (scheme ++ ':' :: '/' :: '/' :: s) = front ++ ':' :: '/' :: '/' :: s := by
  unfold dropScheme
  split
  · exact ⟨scheme, rfl⟩
  · rename_i before rest cut
    split
    · -- An earlier scheme is taken away, and the marks lie behind it.
      rename_i valid
      obtain ⟨colonless, -⟩ := isScheme_cases valid
      obtain ⟨front, rfl, behind⟩ :=
        exists_front_of_colon colonless (append_of_splitScheme? cut)
      cases front with
      | nil =>
        rw [List.append_nil, valid] at invalid
        cases invalid
      | cons c front =>
        have later : front ++ ':' :: '/' :: '/' :: s = ['/', '/'] ++ rest :=
          (List.cons.inj behind).2.symm
        obtain ⟨post, -, marked⟩ := exists_front_of_colon (by decide) later
        cases file : Text.after? "file".toList rest with
        | none => exact ⟨post, marked⟩
        | some more =>
          have whole := Text.after?_eq_some_iff.mp file
          rw [marked] at whole
          obtain ⟨kept, -, same⟩ := exists_front_of_colon (by decide) whole
          exact ⟨kept, same⟩
    · exact ⟨scheme, rfl⟩

theorem exists_dropDriveSlash (front s : List Char) :
    ∃ kept, dropDriveSlash (front ++ ':' :: s) = kept ++ ':' :: s := by
  unfold dropDriveSlash
  split
  · rename_i rest slash
    split
    · cases front with
      | nil => cases slash
      | cons c front => exact ⟨front, (List.cons.inj slash).2.symm⟩
    · exact ⟨front, slash.symm⟩
  · exact ⟨front, rfl⟩

theorem laterComponents_file (s : List Char) : Path.laterComponents ("file".toList ++ '/' :: s) =
    .name "file" :: Path.laterComponents s := by
  rw [Path.laterComponents, Text.splitAt_append_cons]
  rfl

theorem components_behind_file (front s : List Char) :
    (Path.ofChars (front ++ ':' :: '/' :: '/' :: ("file".toList ++ '/' :: s))).components ≠
      (Path.ofChars ('/' :: s)).components := by
  intro same
  obtain ⟨before, written⟩ := Path.exists_components_front (front ++ [':', '/'])
  obtain ⟨top, rooted⟩ := Path.exists_components_front []
  have root : top = [.root] := by
    have alone := rooted []
    rwa [show Path.laterComponents [] = [] from rfl, List.append_nil, eq_comm] at alone
  have marks : front ++ ':' :: '/' :: '/' :: ("file".toList ++ '/' :: s) =
      (front ++ [':', '/']) ++ '/' :: ("file".toList ++ '/' :: s) := by simp
  have whole := rooted s
  rw [List.nil_append] at whole
  rw [marks, written, laterComponents_file, whole, root, List.append_cons] at same
  have last := congrArg List.getLast? (List.append_cancel_right same)
  rw [List.getLast?_concat] at last
  cases last

section

variable {scheme : Scheme} {path : Path} {line : UInt32}

theorem body_of_slash {s : List Char} (rooted : path.text.toList = '/' :: s) :
    takeLine (Text.trimRight (body ⟨path, some line⟩)) = ('/' :: s, some line) := by
  rw [takeLine_body_line, rooted, driveSlash_slash, List.nil_append]

theorem not_roundTrips {s : List Char} (rooted : path.text.toList = '/' :: s)
    (invalid : isScheme (Text.trimLeft scheme.name.toList) = false) :
    ¬ RoundTrips scheme ⟨path, some line⟩ := by
  rintro ⟨m, reads, same⟩
  obtain ⟨-, rfl⟩ := read_eq_ok_iff.mp reads
  have components := (same_iff.mp same).1
  have chars : path = Path.ofChars ('/' :: s) := by rw [← rooted, ofChars_toList]
  have marks : ∀ t : List Char, "://".toList ++ ("file".toList ++ t) =
      ':' :: '/' :: '/' :: ("file".toList ++ t) := fun _ => rfl
  obtain ⟨front, stays⟩ :=
    exists_dropScheme invalid ("file".toList ++ Text.trimRight (body ⟨path, some line⟩))
  have taken : (takeLine (Text.trimRight (body ⟨path, some line⟩))).2.isSome = true := by
    rw [body_of_slash rooted]
    rfl
  have ends := takeLine_append_of_isSome (front ++ ("://".toList ++ "file".toList)) taken
  have grouped : ∀ t : List Char, front ++ ':' :: '/' :: '/' :: ("file".toList ++ t) =
      front ++ ("://".toList ++ "file".toList) ++ t := by simp
  obtain ⟨kept, undriven⟩ := exists_dropDriveSlash front ('/' :: '/' :: ("file".toList ++ '/' :: s))
  rw [trim_write_any, marks, stays, grouped, ends, body_of_slash rooted, ← grouped, undriven,
    chars] at components
  exact components_behind_file kept s components

theorem read_write_of_isScheme (valid : isScheme (Text.trimLeft scheme.name.toList) = true)
    {l : Locator} (travels : Travels l) : read (scheme.write l) = .ok l := by
  have proper : isScheme (Scheme.mk (String.ofList (Text.trimLeft scheme.name.toList))).name.toList =
      true := by
    rwa [String.toList_ofList]
  have reads := read_eq_ok_iff.mp (read_write_of_travels proper travels)
  rw [trim_write proper, String.toList_ofList, ← trim_write_any] at reads
  exact read_eq_ok_iff.mpr reads

end

/-- Exactly those schemes bring a rooted path with a line back that are proper ones, but for blanks
in front. -/
theorem returns_iff_isScheme (scheme : Scheme) {path : Path} (line : UInt32)
    (rooted : path.isAbsolute = true) (driveless : ¬ SlashDrive path.text.toList) :
    (RoundTrips scheme ⟨path, some line⟩ ↔
      isScheme (Text.trimLeft scheme.name.toList) = true) ∧
    (isScheme (Text.trimLeft scheme.name.toList) = true →
      read (scheme.write ⟨path, some line⟩) = .ok ⟨path, some line⟩) := by
  obtain ⟨s, slash⟩ : ∃ s, path.text.toList = '/' :: s := by
    rw [Path.isAbsolute, beq_iff_eq] at rooted
    exact List.head?_eq_some_iff.mp rooted
  have travels : Travels ⟨path, some line⟩ := by
    refine ⟨text_ne_empty (by simp [slash]), driveless, ?_⟩
    intro absent
    cases absent
  refine ⟨⟨fun trip => ?_, fun valid => ?_⟩, fun valid => read_write_of_isScheme valid travels⟩
  · by_contra other
    exact not_roundTrips slash (Bool.eq_false_iff.mpr other) trip
  · exact ⟨_, read_write_of_isScheme valid travels, same_iff.mpr ⟨rfl, rfl⟩⟩

theorem not_returns_lowLine :
    ¬ RoundTrips ⟨"my_editor"⟩ ⟨⟨"/home/me/app.ts"⟩, some 12⟩ ∧
    read ((Scheme.mk "my_editor").write ⟨⟨"/home/me/app.ts"⟩, some 12⟩) =
      .ok ⟨⟨"my_editor://file/home/me/app.ts"⟩, some 12⟩ ∧
    read (Scheme.standard.write ⟨⟨"/home/me/app.ts"⟩, some 12⟩) =
      .ok ⟨⟨"/home/me/app.ts"⟩, some 12⟩ := by
  refine ⟨not_roundTrips rfl (by decide), ?_, ?_⟩
  · exact read_eq_ok_iff.mpr ⟨by decide +kernel, by decide +kernel⟩
  · exact read_eq_ok_iff.mpr ⟨by decide +kernel, by decide +kernel⟩

theorem returns_indented :
    (⟨"/home/me/a:1/app.ts"⟩ : Path).isAbsolute = true ∧
    ¬ SlashDrive "/home/me/a:1/app.ts".toList ∧
    read ((Scheme.mk " vscode-insiders").write ⟨⟨"/home/me/a:1/app.ts"⟩, some 12⟩) =
      .ok ⟨⟨"/home/me/a:1/app.ts"⟩, some 12⟩ := by
  have driveless : ¬ SlashDrive (⟨"/home/me/a:1/app.ts"⟩ : Path).text.toList := by
    rintro ⟨c, rest, split, _⟩
    cases split
  exact ⟨rfl, driveless,
    (returns_iff_isScheme ⟨" vscode-insiders"⟩ 12 rfl driveless).2 (by decide)⟩

end RouteTags.Locator
