import RouteTags.Proofs.Locator.Spellings

namespace RouteTags.Locator

/-- A scheme with its marks, and perhaps a `file`; or nothing at all. -/
def IsFront (s : List Char) : Prop :=
  s = [] ∨ ∃ scheme, isScheme scheme = true ∧
    (s = scheme ++ "://".toList ∨ s = scheme ++ ("://".toList ++ "file".toList))

def IsLineEnd (s : List Char) : Prop :=
  ∃ digits, s = ':' :: digits ∧ digits ≠ [] ∧ (∀ c ∈ digits, c.isDigit = true) ∧
    Nat.ofDigitChars 10 digits 0 < UInt32.size

def Pathless (s : List Char) : Prop :=
  ∃ front back, s = front ++ back ∧ IsFront front ∧ (back = [] ∨ IsLineEnd back)

def Unschemed (s rest : List Char) : Prop :=
  (∃ scheme after, isScheme scheme = true ∧ s = scheme ++ ("://".toList ++ after) ∧
    (after = "file".toList ++ rest ∨ after = rest ∧ ¬ "file".toList <+: after)) ∨
  (rest = s ∧ ∀ before after, s = before ++ ("://".toList ++ after) → isScheme before = false)

def Splits (s path : List Char) : Option UInt32 → Prop
  | some line => ∃ digits, s = path ++ ':' :: digits ∧ digits ≠ [] ∧
      (∀ c ∈ digits, c.isDigit = true) ∧ Nat.ofDigitChars 10 digits 0 = line.toNat
  | none => path = s ∧ ¬ EndsInLine s

theorem unschemed_dropScheme (s : List Char) : Unschemed s (dropScheme s) := by
  cases cut : splitScheme? s with
  | none =>
    have whole : dropScheme s = s := by rw [dropScheme, cut]
    refine .inr ⟨whole, ?_⟩
    rintro before after rfl
    cases valid : isScheme before with
    | false => rfl
    | true =>
      rw [splitScheme?_append (isScheme_cases valid).1] at cut
      cases cut
  | some parts =>
    obtain ⟨before, rest⟩ := parts
    have split := append_of_splitScheme? cut
    cases valid : isScheme before with
    | true =>
      refine .inl ⟨before, rest, valid, split, ?_⟩
      rw [dropScheme, cut]
      simp only [valid, if_true]
      cases file : Text.after? "file".toList rest with
      | some more => exact .inl (Text.after?_eq_some_iff.mp file)
      | none =>
        refine .inr ⟨rfl, ?_⟩
        rintro ⟨more, begins⟩
        rw [Text.after?_eq_some_iff.mpr begins.symm] at file
        cases file
    | false =>
      have whole : dropScheme s = s := by
        rw [dropScheme, cut]
        simp [valid]
      refine .inr ⟨whole, ?_⟩
      intro other after again
      cases proper : isScheme other with
      | false => rfl
      | true =>
        -- A scheme has no colon, so it would end at the first marks.
        rw [again, splitScheme?_append (isScheme_cases proper).1] at cut
        cases cut
        rw [proper] at valid
        cases valid

theorem dropScheme_of_unschemed {s rest : List Char} (left : Unschemed s rest) :
    dropScheme s = rest := by
  rcases left with ⟨scheme, after, valid, rfl, rfl | ⟨rfl, plain⟩⟩ | ⟨rfl, unschemed⟩
  · exact dropScheme_append valid rest
  · rw [dropScheme, splitScheme?_append (isScheme_cases valid).1]
    cases file : Text.after? "file".toList after with
    | none => simp only [valid, if_true, file, Option.getD_none]
    | some more => exact absurd ⟨more, (Text.after?_eq_some_iff.mp file).symm⟩ plain
  · exact dropScheme_eq_self unschemed

theorem splits_takeLine (s : List Char) : Splits s (takeLine s).1 (takeLine s).2 := by
  rcases takeLine_cases s with ⟨front, last, line, rfl, number, taking⟩ | left
  · rw [taking]
    exact ⟨last, rfl, readLine?_eq_some_iff.mp number⟩
  · have untaken : (takeLine s).2 = none := by rw [left]
    rw [left]
    exact ⟨rfl, (takeLine_of_snd_eq_none untaken).2⟩

theorem fst_takeLine_eq_nil_iff (s : List Char) : (takeLine s).1 = [] ↔ s = [] ∨ IsLineEnd s := by
  constructor
  · intro empty
    rcases takeLine_cases s with ⟨front, last, line, rfl, number, taking⟩ | left
    · rw [taking] at empty
      obtain ⟨nonempty, digit, value⟩ := readLine?_eq_some_iff.mp number
      exact .inr ⟨last, by rw [show front = [] from empty]; rfl, nonempty, digit,
        value ▸ line.toNat_lt_size⟩
    · rw [left] at empty
      exact .inl empty
  · rintro (rfl | ⟨digits, rfl, nonempty, digit, small⟩)
    · rfl
    · have taken := takeLine_isSome_iff.mpr
        ⟨[], digits, (List.nil_append _).symm, nonempty, digit, small⟩
      rcases takeLine_cases (':' :: digits) with ⟨front, last, line, split, number, taking⟩ | left
      · cases front with
        | nil => rw [taking]
        | cons c front =>
          obtain ⟨-, inside⟩ := List.cons.inj split
          have colon : ':' ∈ digits := by simp [inside]
          exact absurd colon (colon_not_mem_of_digits digit)
      · rw [left] at taken
        cases taken

theorem dropDriveSlash_eq_nil_iff (s : List Char) : dropDriveSlash s = [] ↔ s = [] := by
  constructor
  · intro empty
    unfold dropDriveSlash at empty
    split at empty
    · split at empty
      · rename_i drive
        obtain ⟨c, more, content, -⟩ := hasDrive_iff.mp drive
        rw [content] at empty
        cases empty
      · cases empty
    · exact empty
  · rintro rfl
    rfl

theorem pathless_iff (s : List Char) :
    Pathless s ↔ dropScheme s = [] ∨ IsLineEnd (dropScheme s) := by
  constructor
  · rintro ⟨front, back, rfl, rfl | ⟨scheme, valid, rfl | rfl⟩, ending⟩
    · have whole : dropScheme ([] ++ back) = back := by
        apply dropScheme_of_unschemed
        refine .inr ⟨rfl, ?_⟩
        rintro before after split
        cases valid : isScheme before with
        | false => rfl
        | true =>
          obtain ⟨-, c, more, rfl, letter⟩ := isScheme_cases valid
          rcases ending with rfl | ⟨digits, rfl, -⟩
          · cases split
          · obtain ⟨rfl, -⟩ := List.cons.inj split
            cases letter
      rwa [whole]
    · have left : dropScheme (scheme ++ "://".toList ++ back) = back := by
        apply dropScheme_of_unschemed
        refine .inl ⟨scheme, back, valid, by simp, .inr ⟨rfl, ?_⟩⟩
        rintro ⟨more, begins⟩
        rcases ending with rfl | ⟨digits, rfl, -⟩
        · cases begins
        · cases begins
      rwa [left]
    · have left : dropScheme (scheme ++ ("://".toList ++ "file".toList) ++ back) = back := by
        rw [List.append_assoc, List.append_assoc]
        exact dropScheme_append valid back
      rwa [left]
  · intro ending
    have left := unschemed_dropScheme s
    generalize dropScheme s = rest at ending left
    rcases left with ⟨scheme, after, valid, rfl, rfl | ⟨rfl, -⟩⟩ | ⟨rfl, -⟩
    · exact ⟨scheme ++ ("://".toList ++ "file".toList), rest, by simp,
        .inr ⟨scheme, valid, .inr rfl⟩, ending⟩
    · exact ⟨scheme ++ "://".toList, after, by simp, .inr ⟨scheme, valid, .inl rfl⟩, ending⟩
    · exact ⟨[], rest, rfl, .inl rfl, ending⟩

theorem trim_eq_nil_iff (s : List Char) : Text.trim s = [] ↔ ∀ c ∈ s, Text.isBlank c = true := by
  rw [← Text.trimLeft_eq_nil_iff]
  constructor
  · intro empty
    cases left : Text.trimLeft s with
    | nil => rfl
    | cons c rest =>
      rw [Text.trim, left] at empty
      have kept := Text.trimRight_append_cons [] rest (Text.isBlank_of_trimLeft_cons left)
      rw [List.nil_append, empty] at kept
      cases kept
  · intro empty
    rw [Text.trim, empty]
    rfl

theorem read_eq_empty_iff (input : String) :
    read input = .error .empty ↔ ∀ c ∈ input.toList, Text.isBlank c = true := by
  rw [← trim_eq_nil_iff]
  by_cases content : Text.trim input.toList = []
  · rw [read, content]
    exact iff_of_true rfl rfl
  · rw [read_eq content, ofParts]
    split
    · simp [content]
    · simp [content]

theorem read_eq_missingPath_iff (input shown : String) :
    read input = .error (.missingPath shown) ↔ shown = input ∧
      Text.trim input.toList ≠ [] ∧ Pathless (Text.trim input.toList) := by
  rw [pathless_iff, ← fst_takeLine_eq_nil_iff, ← dropDriveSlash_eq_nil_iff]
  by_cases content : Text.trim input.toList = []
  · rw [read, content]
    simp
  · rw [read_eq content, ofParts]
    split
    · rename_i empty
      simp [content, empty, eq_comm]
    · rename_i path
      simp only [reduceCtorEq, false_iff, not_and]
      exact fun _ _ => path

theorem exists_read_iff (input : String) :
    (∃ l, read input = .ok l) ↔
      Text.trim input.toList ≠ [] ∧ ¬ Pathless (Text.trim input.toList) := by
  rw [pathless_iff, ← fst_takeLine_eq_nil_iff, ← dropDriveSlash_eq_nil_iff]
  simp only [read_eq_ok_iff, exists_and_left, exists_eq, and_true]
  refine ⟨fun path => ⟨?_, path⟩, And.right⟩
  intro blank
  rw [blank] at path
  exact path rfl

/-- A blank text has no locator. A text has no path, and is told as it was given, exactly when a
scheme, perhaps with `file`, and a line are all that there is, or only one of the two. Every other
text has a path, and a line exactly when it ends in one once the scheme is gone. -/
theorem read_outcomes (input : String) :
    (read input = .error .empty ↔ ∀ c ∈ input.toList, Text.isBlank c = true) ∧
    (∀ shown, read input = .error (.missingPath shown) ↔ shown = input ∧
      Text.trim input.toList ≠ [] ∧ Pathless (Text.trim input.toList)) ∧
    ((∃ l, read input = .ok l) ↔
      Text.trim input.toList ≠ [] ∧ ¬ Pathless (Text.trim input.toList)) ∧
    ∀ l, read input = .ok l → l.path.text ≠ "" ∧
      ∃ rest path, Unschemed (Text.trim input.toList) rest ∧
        (l.line.isSome = true ↔ EndsInLine rest) ∧
        Splits rest path l.line ∧ l.path = .ofChars (dropDriveSlash path) := by
  refine ⟨read_eq_empty_iff input, read_eq_missingPath_iff input, exists_read_iff input, ?_⟩
  intro l reads
  refine ⟨(travels_of_read reads).named, ?_⟩
  obtain ⟨-, rfl⟩ := read_eq_ok_iff.mp reads
  exact ⟨_, _, unschemed_dropScheme _, takeLine_isSome_iff, splits_takeLine _, rfl⟩

example :
    ["vscode://file:4294967296", "vscode://:", "my_editor://file:1", "x://filefile:7"].map
        (fun text => (read text).toOption) =
      [some ⟨⟨":4294967296"⟩, none⟩, some ⟨⟨":"⟩, none⟩, some ⟨⟨"my_editor://file"⟩, some 1⟩,
        some ⟨⟨"file"⟩, some 7⟩] := by
  decide +kernel

end RouteTags.Locator
