import RouteTags.Proofs.Locator.Stable

namespace RouteTags.Locator

def OnDrive (s : List Char) : Prop :=
  ∃ c sep rest, s = c :: ':' :: sep :: rest ∧ c.isAlpha = true ∧ (sep = '/' ∨ sep = '\\')

def Rooted (s : List Char) : Prop := (∃ rest, s = '/' :: rest) ∨ OnDrive s

/-- A drive with two slashes behind it, which is a scheme to a reader. -/
def LikeScheme (s : List Char) : Prop :=
  ∃ c rest, s = c :: ':' :: '/' :: '/' :: rest ∧ c.isAlpha = true

def uriPath (path : String) : String := if hasDrive path.toList then "/" ++ path else path

theorem toList_uriPath (path : String) :
    (uriPath path).toList = driveSlash path.toList ++ path.toList := by
  unfold uriPath driveSlash
  split
  · exact String.toList_append
  · rfl

theorem hasDrive_of_onDrive {s : List Char} (drive : OnDrive s) : hasDrive s = true := by
  obtain ⟨c, sep, rest, rfl, letter, _⟩ := drive
  exact hasDrive_iff.mpr ⟨c, sep :: rest, rfl, letter⟩

theorem ne_colon_of_isAlpha {c : Char} (letter : c.isAlpha = true) : c ≠ ':' := by
  rintro rfl
  cases letter

theorem takeLine_append_of_isSome (front : List Char) {s : List Char}
    (taken : (takeLine s).2.isSome = true) :
    takeLine (front ++ s) = (front ++ (takeLine s).1, (takeLine s).2) := by
  rcases takeLine_cases s with ⟨before, last, line, rfl, number, taking⟩ | left
  · obtain ⟨_, digit, _⟩ := readLine?_eq_some_iff.mp number
    rw [taking, ← List.append_assoc, takeLine_append_colon _ (colon_not_mem_of_digits digit),
      number]
  · rw [left] at taken
    cases taken

theorem fst_takeLine_append {front s : List Char}
    (same : (takeLine (front ++ s)).2 = (takeLine s).2) :
    (takeLine (front ++ s)).1 = front ++ (takeLine s).1 := by
  cases taken : (takeLine s).2 with
  | some line => rw [takeLine_append_of_isSome front (by rw [taken]; rfl)]
  | none => rw [takeLine_eq_self (same.trans taken), takeLine_eq_self taken]

theorem takeLine_cons {c : Char} (other : c ≠ ':') (s : List Char) :
    takeLine (c :: s) = (c :: (takeLine s).1, (takeLine s).2) := by
  by_cases taken : (takeLine s).2.isSome = true
  · exact takeLine_append_of_isSome [c] taken
  · have untaken : (takeLine s).2 = none := by simpa using taken
    rw [takeLine_eq_self untaken]
    apply takeLine_eq_self
    cases ends : (takeLine (c :: s)).2 with
    | none => rfl
    | some line =>
      obtain ⟨front, digits, split, number⟩ :=
        takeLine_isSome_iff.mp (Option.isSome_of_eq_some ends)
      cases front with
      | nil => exact absurd (List.cons.inj split).1 other
      | cons d front =>
        exact absurd (takeLine_isSome_iff.mpr ⟨front, digits, (List.cons.inj split).2, number⟩) taken

theorem hasDrive_takeLine {s : List Char} (drive : OnDrive s) : hasDrive (takeLine s).1 = true := by
  obtain ⟨c, sep, rest, rfl, letter, separates⟩ := drive
  rw [takeLine_cons (ne_colon_of_isAlpha letter)]
  have kept : ∃ more, (takeLine (':' :: sep :: rest)).1 = ':' :: more := by
    rcases takeLine_cases (':' :: sep :: rest) with ⟨front, last, line, split, number, taking⟩ | left
    · cases front with
      | nil =>
        obtain ⟨_, rfl⟩ := List.cons.inj split
        obtain ⟨_, digit, _⟩ := readLine?_eq_some_iff.mp number
        have figure := digit sep List.mem_cons_self
        rcases separates with rfl | rfl
        · cases figure
        · cases figure
      | cons d front =>
        obtain ⟨rfl, _⟩ := List.cons.inj split
        exact ⟨front, by rw [taking]⟩
    · exact ⟨sep :: rest, by rw [left]⟩
  obtain ⟨more, front⟩ := kept
  exact hasDrive_iff.mpr ⟨c, more, by rw [front], letter⟩

theorem dropDriveSlash_takeLine {s : List Char} (drive : OnDrive s) :
    dropDriveSlash (takeLine s).1 = (takeLine s).1 := by
  obtain ⟨c, more, split, letter⟩ := hasDrive_iff.mp (hasDrive_takeLine drive)
  have slashless : c ≠ '/' := by
    rintro rfl
    cases letter
  rw [split]
  simp [dropDriveSlash, slashless]

theorem dropScheme_append_slash {scheme : List Char} (valid : isScheme scheme = true)
    (s : List Char) : dropScheme (scheme ++ ("://".toList ++ '/' :: s)) = '/' :: s := by
  obtain ⟨colonless, _⟩ := isScheme_cases valid
  rw [dropScheme, splitScheme?_append colonless]
  simp only [valid, if_true]
  rfl

theorem dropScheme_eq_self {s : List Char}
    (unschemed : ∀ before rest, s = before ++ ("://".toList ++ rest) → isScheme before = false) :
    dropScheme s = s := by
  unfold dropScheme
  split
  · rfl
  · rename_i before rest cut
    rw [unschemed before rest (append_of_splitScheme? cut)]
    rfl

theorem dropScheme_of_rooted {s : List Char} (rooted : Rooted s) (plain : ¬ LikeScheme s) :
    dropScheme s = s := by
  apply dropScheme_eq_self
  intro before rest split
  cases valid : isScheme before with
  | false => rfl
  | true =>
    obtain ⟨colonless, c, more, rfl, letter⟩ := isScheme_cases valid
    rcases rooted with ⟨path, rfl⟩ | ⟨d, sep, path, rfl, _, separates⟩
    · obtain ⟨rfl, _⟩ := List.cons.inj split
      cases letter
    · -- The first colon of the path is that of the drive, so the scheme is the drive.
      obtain ⟨rfl, colon⟩ := List.cons.inj split
      cases more with
      | nil =>
        obtain ⟨_, slashes⟩ := List.cons.inj colon
        obtain ⟨rfl, rfl⟩ := List.cons.inj slashes
        exact absurd ⟨d, rest, rfl, letter⟩ plain
      | cons e more =>
        obtain ⟨rfl, _⟩ := List.cons.inj colon
        exact absurd (by simp) colonless

theorem dropScheme_of_likeScheme {s : List Char} (like : LikeScheme s) :
    ∃ front, front ≠ [] ∧ s = front ++ dropScheme s := by
  obtain ⟨c, rest, rfl, letter⟩ := like
  have colonless : ':' ∉ [c] := by simpa using (ne_colon_of_isAlpha letter).symm
  have cut : splitScheme? (c :: ':' :: '/' :: '/' :: rest) = some ([c], rest) :=
    splitScheme?_append colonless rest
  have valid : isScheme [c] = true := by simp [isScheme, isSchemeChar, Char.isAlphanum, letter]
  rw [dropScheme, cut]
  simp only [valid, if_true]
  cases file : Text.after? "file".toList rest with
  | none => exact ⟨[c, ':', '/', '/'], by simp, rfl⟩
  | some more =>
    refine ⟨[c, ':', '/', '/'] ++ "file".toList, by simp, ?_⟩
    rw [Text.after?_eq_some_iff.mp file]
    rfl

theorem lineSuffix_cases (line : Option UInt32) :
    (lineSuffix line).toList = [] ∨ ∃ digits, (lineSuffix line).toList = ':' :: digits := by
  cases line with
  | none => exact .inl rfl
  | some line => exact .inr ⟨(toString line.toNat).toList, by simp [lineSuffix]⟩

theorem Rooted.append {s : List Char} (rooted : Rooted s) (more : List Char) :
    Rooted (s ++ more) := by
  rcases rooted with ⟨rest, rfl⟩ | ⟨c, sep, rest, rfl, form⟩
  · exact .inl ⟨rest ++ more, rfl⟩
  · exact .inr ⟨c, sep, rest ++ more, rfl, form⟩

theorem Rooted.trimRight {s : List Char} (rooted : Rooted s) : Rooted (Text.trimRight s) := by
  rcases rooted with ⟨rest, rfl⟩ | ⟨c, sep, rest, rfl, letter, separates⟩
  · exact .inl ⟨_, Text.trimRight_append_cons [] rest (by decide)⟩
  · have solid : Text.isBlank sep = false := by
      rcases separates with rfl | rfl
      · decide
      · decide
    exact .inr ⟨c, sep, _, Text.trimRight_append_cons [c, ':'] rest solid, letter, separates⟩

theorem likeScheme_trimRight_iff {s : List Char} (rooted : Rooted s) (line : Option UInt32) :
    LikeScheme (Text.trimRight (s ++ (lineSuffix line).toList)) ↔ LikeScheme s := by
  constructor
  · rintro ⟨c, more, split, letter⟩
    obtain ⟨blanks, _, whole⟩ := Text.exists_trimRight (s ++ (lineSuffix line).toList)
    rw [split] at whole
    rcases rooted with ⟨rest, rfl⟩ | ⟨d, sep, rest, rfl, _, _⟩
    · obtain ⟨rfl, _⟩ := List.cons.inj whole
      cases letter
    · simp only [List.cons_append, List.cons.injEq, true_and] at whole
      obtain ⟨rfl, rfl, slash⟩ := whole
      cases rest with
      | cons e rest =>
        obtain ⟨rfl, _⟩ := List.cons.inj slash
        exact ⟨d, rest, rfl, letter⟩
      | nil =>
        rcases lineSuffix_cases line with none | ⟨digits, some⟩
        · rw [none] at slash
          cases slash
        · rw [some] at slash
          obtain ⟨colon, _⟩ := List.cons.inj slash
          cases colon
  · rintro ⟨c, rest, rfl, letter⟩
    exact ⟨c, _, Text.trimRight_append_cons [c, ':', '/'] (rest ++ _) (by decide), letter⟩

theorem trim_of_rooted {s : List Char} (rooted : Rooted s) : Text.trim s = Text.trimRight s := by
  rcases rooted with ⟨rest, rfl⟩ | ⟨c, sep, rest, rfl, letter, _⟩
  · exact Text.trim_cons rest (by decide)
  · exact Text.trim_cons _ (solid_of_isAlpha letter)

theorem driveSlash_of_onDrive {s : List Char} (drive : OnDrive s) : driveSlash s = ['/'] := by
  rw [driveSlash, hasDrive_of_onDrive drive]
  rfl

theorem driveSlash_slash (rest : List Char) : driveSlash ('/' :: rest) = [] := by
  rw [driveSlash, hasDrive_slash]
  rfl

theorem place_of_rooted {s : List Char} (rooted : Rooted s) :
    dropDriveSlash (takeLine (driveSlash s ++ s)).1 = dropDriveSlash (takeLine s).1 ∧
    (takeLine (driveSlash s ++ s)).2 = (takeLine s).2 ∧ dropDriveSlash (takeLine s).1 ≠ [] := by
  rcases rooted with ⟨rest, rfl⟩ | drive
  · rw [driveSlash_slash, List.nil_append, takeLine_cons (by decide)]
    refine ⟨rfl, rfl, ?_⟩
    simp only [dropDriveSlash]
    split
    · rename_i drive
      obtain ⟨c, more, content, _⟩ := hasDrive_iff.mp drive
      rw [content]
      exact List.cons_ne_nil _ _
    · exact List.cons_ne_nil _ _
  · rw [driveSlash_of_onDrive drive, List.singleton_append, takeLine_cons (by decide)]
    refine ⟨?_, rfl, ?_⟩
    · rw [dropDriveSlash_takeLine drive]
      simp [dropDriveSlash, hasDrive_takeLine drive]
    · obtain ⟨c, more, content, _⟩ := hasDrive_iff.mp (hasDrive_takeLine drive)
      rw [dropDriveSlash_takeLine drive, content]
      exact List.cons_ne_nil _ _

theorem exists_slash_driveSlash {s : List Char} (rooted : Rooted s) :
    ∃ rest, driveSlash s ++ s = '/' :: rest := by
  rcases rooted with ⟨rest, rfl⟩ | drive
  · exact ⟨rest, by rw [driveSlash_slash, List.nil_append]⟩
  · exact ⟨s, by rw [driveSlash_of_onDrive drive, List.singleton_append]⟩

def bareText (path : String) (line : Option UInt32) : List Char :=
  Text.trimRight (path.toList ++ (lineSuffix line).toList)

def barePlace (path : String) (line : Option UInt32) : Locator :=
  ⟨.ofChars (dropDriveSlash (takeLine (bareText path line)).1), (takeLine (bareText path line)).2⟩

section

variable {path : String} (rooted : Rooted path.toList) (line : Option UInt32)

include rooted

theorem rooted_bareText : Rooted (bareText path line) := (rooted.append _).trimRight

theorem trimRight_uri : Text.trimRight ((uriPath path).toList ++ (lineSuffix line).toList) =
    driveSlash (bareText path line) ++ bareText path line := by
  have slash : driveSlash path.toList = driveSlash (bareText path line) := by
    rw [bareText, driveSlash, driveSlash, hasDrive_trimRight]
    rcases rooted with ⟨rest, start⟩ | drive
    · rw [start, List.cons_append, hasDrive_slash, hasDrive_slash]
    · obtain ⟨c, sep, rest, start, letter, _⟩ := drive
      rw [start]
      rfl
  rw [toList_uriPath, List.append_assoc, trimRight_driveSlash, slash, bareText]

theorem dropScheme_uri {scheme : Scheme} (valid : isScheme scheme.name.toList = true) :
    dropScheme (Text.trim (scheme.name ++ "://file" ++ uriPath path ++ lineSuffix line).toList) =
      driveSlash (bareText path line) ++ bareText path line := by
  have written : scheme.name ++ "://file" ++ uriPath path ++ lineSuffix line =
      scheme.write ⟨⟨path⟩, line⟩ := by
    unfold uriPath Scheme.write
    split
    · simp only [String.append_assoc]
    · simp only [String.append_assoc, String.empty_append]
  have whole : body ⟨⟨path⟩, line⟩ = (uriPath path).toList ++ (lineSuffix line).toList := by
    rw [toList_uriPath, List.append_assoc, body]
  rw [written, dropScheme_trim_write valid, whole, trimRight_uri rooted]

theorem dropScheme_file :
    dropScheme (Text.trim ("file://" ++ uriPath path ++ lineSuffix line).toList) =
      driveSlash (bareText path line) ++ bareText path line := by
  have text : ("file://" ++ uriPath path ++ lineSuffix line).toList =
      'f' :: ("ile:/".toList ++ '/' :: ((uriPath path).toList ++ (lineSuffix line).toList)) := by
    simp
  obtain ⟨rest, start⟩ := exists_slash_driveSlash (rooted_bareText rooted line)
  rw [text, Text.trim_cons _ (by decide), ← List.cons_append,
    Text.trimRight_append_cons _ _ (by decide), trimRight_uri rooted, start]
  exact @dropScheme_append_slash "file".toList (by decide) rest

theorem trim_bare : Text.trim (path ++ lineSuffix line).toList = bareText path line := by
  rw [String.toList_append, trim_of_rooted (rooted.append _), bareText]

theorem read_of_stages {input : String} (stages : dropScheme (Text.trim input.toList) =
      driveSlash (bareText path line) ++ bareText path line) :
    read input = .ok (barePlace path line) := by
  obtain ⟨same, lines, nonempty⟩ := place_of_rooted (rooted_bareText rooted line)
  refine read_eq_ok_iff.mpr ?_
  rw [stages, same, lines]
  exact ⟨nonempty, rfl⟩

theorem read_bare (plain : ¬ LikeScheme path.toList) :
    read (path ++ lineSuffix line) = .ok (barePlace path line) := by
  have unlike : ¬ LikeScheme (bareText path line) :=
    mt (likeScheme_trimRight_iff rooted line).mp plain
  obtain ⟨-, -, nonempty⟩ := place_of_rooted (rooted_bareText rooted line)
  refine read_eq_ok_iff.mpr ?_
  rw [trim_bare rooted, dropScheme_of_rooted (rooted_bareText rooted line) unlike]
  exact ⟨nonempty, rfl⟩

theorem read_bare_ne (like : LikeScheme path.toList) :
    read (path ++ lineSuffix line) ≠ .ok (barePlace path line) := by
  intro reads
  obtain ⟨c, rest, start, letter⟩ := (likeScheme_trimRight_iff rooted line).mpr like
  have drive : OnDrive (bareText path line) := ⟨c, '/', '/' :: rest, start, letter, .inl rfl⟩
  obtain ⟨front, content, whole⟩ := dropScheme_of_likeScheme ⟨c, rest, start, letter⟩
  rw [← bareText] at whole
  obtain ⟨_, same⟩ := read_eq_ok_iff.mp reads
  rw [barePlace, trim_bare rooted, dropDriveSlash_takeLine drive] at same
  obtain ⟨paths, lines⟩ := Locator.mk.inj same
  have texts := congrArg String.toList (Path.mk.inj paths)
  rw [String.toList_ofList, String.toList_ofList] at texts
  generalize dropScheme (bareText path line) = left at whole lines texts
  rw [whole] at lines texts
  rw [fst_takeLine_append lines] at texts
  have longer := congrArg List.length texts
  rw [List.length_append] at longer
  have short := (dropDriveSlash_suffix (takeLine left).1).length_le
  have some := List.length_pos_iff.mpr content
  omega

end

/-- A rooted path is read alike behind any scheme with `file` and behind `file` as the scheme, with
its line if there is one, and as a bare path exactly if it does not look like a scheme itself. -/
theorem read_spellings {scheme : Scheme} (valid : isScheme scheme.name.toList = true)
    {path : String} (rooted : Rooted path.toList) (line : Option UInt32) :
    ∃ l, read (scheme.name ++ "://file" ++ uriPath path ++ lineSuffix line) = .ok l ∧
      read ("file://" ++ uriPath path ++ lineSuffix line) = .ok l ∧
      (read (path ++ lineSuffix line) = .ok l ↔ ¬ LikeScheme path.toList) := by
  refine ⟨barePlace path line, read_of_stages rooted line (dropScheme_uri rooted line valid),
    read_of_stages rooted line (dropScheme_file rooted line), ?_⟩
  constructor
  · exact fun reads like => read_bare_ne rooted line like reads
  · exact read_bare rooted line

/-- Two slashes behind a drive, read in two ways: by itself the drive is a scheme, as it must be in
what a scheme of that name writes. -/
theorem read_drive_slashes :
    Rooted "C://x".toList ∧ isScheme "vscode".toList = true ∧
    read "C://x" = .ok ⟨⟨"x"⟩, none⟩ ∧
    read "vscode://file/C://x" = .ok ⟨⟨"C://x"⟩, none⟩ ∧
    read "C://x" ≠ read "vscode://file/C://x" ∧
    (Scheme.mk "C").write ⟨⟨"/x"⟩, none⟩ = "C://file/x" := by
  have bare : read "C://x" = .ok ⟨⟨"x"⟩, none⟩ :=
    read_eq_ok_iff.mpr ⟨by decide +kernel, by decide +kernel⟩
  have uri : read "vscode://file/C://x" = .ok ⟨⟨"C://x"⟩, none⟩ :=
    read_eq_ok_iff.mpr ⟨by decide +kernel, by decide +kernel⟩
  refine ⟨.inr ⟨'C', '/', "/x".toList, rfl, by decide, .inl rfl⟩, by decide, bare, uri, ?_,
    by decide +kernel⟩
  rw [bare, uri]
  exact fun same => absurd (Except.ok.inj same) (by decide)

theorem read_spellings_drive :
    isScheme "vscode".toList = true ∧ Rooted "c:\\src\\a.ts".toList ∧
    ∃ l, read "vscode://file/c:\\src\\a.ts:41" = .ok l ∧
      read "file:///c:\\src\\a.ts:41" = .ok l ∧ read "c:\\src\\a.ts:41" = .ok l := by
  have valid : isScheme (Scheme.mk "vscode").name.toList = true := by decide
  have rooted : Rooted "c:\\src\\a.ts".toList :=
    .inr ⟨'c', '\\', "src\\a.ts".toList, rfl, by decide, .inr rfl⟩
  have plain : ¬ LikeScheme "c:\\src\\a.ts".toList := by
    rintro ⟨c, rest, split, _⟩
    cases split
  obtain ⟨l, uri, file, bare⟩ := read_spellings valid rooted (some 41)
  exact ⟨valid, rooted, l, uri, file, bare.mpr plain⟩

end RouteTags.Locator
