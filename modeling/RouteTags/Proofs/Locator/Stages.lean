import RouteTags.Locator
import RouteTags.Proofs.Path.Components
import RouteTags.Proofs.Text.Trim

namespace RouteTags.Locator

def EndsInLine (s : List Char) : Prop :=
  ∃ before digits, s = before ++ ':' :: digits ∧ digits ≠ [] ∧
    (∀ c ∈ digits, c.isDigit = true) ∧ Nat.ofDigitChars 10 digits 0 < UInt32.size

theorem decimal_eq (digits : List Char) : decimal digits = Nat.ofDigitChars 10 digits 0 := by
  rw [Nat.ofDigitChars_eq_foldl]
  rfl

theorem readLine?_eq_some_iff {digits : List Char} {line : UInt32} :
    readLine? digits = some line ↔ digits ≠ [] ∧ (∀ c ∈ digits, c.isDigit = true) ∧
      Nat.ofDigitChars 10 digits 0 = line.toNat := by
  rw [readLine?, decimal_eq]
  split
  · rename_i bad
    simp only [Bool.or_eq_true, List.isEmpty_iff, Bool.not_eq_true', List.all_eq_false] at bad
    constructor
    · intro h
      cases h
    · rintro ⟨nonempty, digit, _⟩
      rcases bad with empty | ⟨c, hc, other⟩
      · exact absurd empty nonempty
      · exact absurd (digit c hc) other
  · rename_i good
    simp only [Bool.or_eq_true, List.isEmpty_iff, Bool.not_eq_true', not_or, Bool.not_eq_false,
      List.all_eq_true] at good
    have width := line.toNat_lt
    split
    · rename_i small
      have value : (Nat.ofDigitChars 10 digits 0).toUInt32.toNat = Nat.ofDigitChars 10 digits 0 :=
        UInt32.toNat_ofNat_of_lt' small
      rw [Option.some.injEq, ← UInt32.toNat_inj, value]
      exact ⟨fun h => ⟨good.1, good.2, h⟩, fun h => h.2.2⟩
    · rename_i large
      constructor
      · intro h
        cases h
      · rintro ⟨_, _, value⟩
        omega

theorem readLine?_toDigits (line : UInt32) :
    readLine? (Nat.toDigits 10 line.toNat) = some line := by
  refine readLine?_eq_some_iff.mpr ⟨Nat.toDigits_ne_nil, ?_, Nat.ofDigitChars_ten_toDigits⟩
  exact fun c hc => Nat.isDigit_of_mem_toDigits (by decide) (by decide) hc

theorem ne_colon_of_mem_reverse {s : List Char} (absent : ':' ∉ s) :
    ∀ c ∈ s.reverse, decide (c ≠ ':') = true := by
  intro c hc
  refine decide_eq_true ?_
  rintro rfl
  exact absent (List.mem_reverse.mp hc)

theorem takeLine_of_not_mem {s : List Char} (absent : ':' ∉ s) : takeLine s = (s, none) := by
  have inside := ne_colon_of_mem_reverse absent
  have nothing : (s.reverse ++ []).dropWhile (· ≠ ':') = [] := List.dropWhile_append_of_pos inside
  rw [List.append_nil] at nothing
  simp only [takeLine, nothing]

theorem takeLine_append_colon (front : List Char) {last : List Char} (absent : ':' ∉ last) :
    takeLine (front ++ ':' :: last) =
      match readLine? last with
      | some line => (front, some line)
      | none => (front ++ ':' :: last, none) := by
  have backwards : (front ++ ':' :: last).reverse = last.reverse ++ ':' :: front.reverse := by simp
  have inside := ne_colon_of_mem_reverse absent
  have dropped : (front ++ ':' :: last).reverse.dropWhile (· ≠ ':') = ':' :: front.reverse := by
    rw [backwards, List.dropWhile_append_of_pos inside]
    simp
  have taken : (front ++ ':' :: last).reverse.takeWhile (· ≠ ':') = last.reverse := by
    rw [backwards, List.takeWhile_append_of_pos inside]
    simp
  cases number : readLine? last with
  | none => simp only [takeLine, dropped, taken, List.reverse_reverse, number]
  | some line => simp only [takeLine, dropped, taken, List.reverse_reverse, number]

theorem colon_not_mem_of_digits {digits : List Char} (digit : ∀ c ∈ digits, c.isDigit = true) :
    ':' ∉ digits :=
  fun h => absurd (digit ':' h) (by decide)

theorem takeLine_cases (s : List Char) :
    (∃ front last line, s = front ++ ':' :: last ∧ readLine? last = some line ∧
      takeLine s = (front, some line)) ∨ takeLine s = (s, none) := by
  rcases Text.not_mem_or_last ':' s with absent | ⟨front, last, rfl, absent⟩
  · exact .inr (takeLine_of_not_mem absent)
  · rw [takeLine_append_colon front absent]
    cases h : readLine? last with
    | none => exact .inr rfl
    | some line => exact .inl ⟨front, last, line, rfl, h, rfl⟩

theorem takeLine_isSome_iff {s : List Char} : (takeLine s).2.isSome = true ↔ EndsInLine s := by
  constructor
  · intro taken
    rcases takeLine_cases s with ⟨front, last, line, rfl, reads, _⟩ | left
    · obtain ⟨nonempty, digit, value⟩ := readLine?_eq_some_iff.mp reads
      exact ⟨front, last, rfl, nonempty, digit, value ▸ line.toNat_lt_size⟩
    · rw [left] at taken
      cases taken
  · rintro ⟨front, digits, rfl, nonempty, digit, small⟩
    have reads : readLine? digits = some (UInt32.ofNat (Nat.ofDigitChars 10 digits 0)) := by
      refine readLine?_eq_some_iff.mpr ⟨nonempty, digit, ?_⟩
      rw [UInt32.toNat_ofNat_of_lt' small]
    rw [takeLine_append_colon front (colon_not_mem_of_digits digit), reads]
    rfl

theorem solid_of_isAlpha {c : Char} (letter : c.isAlpha = true) : Text.isBlank c = false := by
  have range : 65 ≤ c.toNat ∧ c.toNat ≤ 122 := by
    rcases (Bool.or_eq_true c.isUpper c.isLower).mp letter with upper | lower
    · obtain ⟨low, high⟩ := of_decide_eq_true upper
      have high : c.toNat ≤ 90 := UInt32.le_iff_toNat_le.mp high
      exact ⟨UInt32.le_iff_toNat_le.mp low, by omega⟩
    · obtain ⟨low, high⟩ := (Bool.and_eq_true _ _).mp lower
      have low : 97 ≤ c.toNat := UInt32.le_iff_toNat_le.mp (of_decide_eq_true low)
      exact ⟨by omega, UInt32.le_iff_toNat_le.mp (of_decide_eq_true high)⟩
  exact Text.solid_of_visible (by omega) (by omega)

theorem isScheme_cases {s : List Char} (valid : isScheme s = true) :
    ':' ∉ s ∧ ∃ c rest, s = c :: rest ∧ c.isAlpha = true := by
  cases s with
  | nil => cases valid
  | cons c rest =>
    simp only [isScheme, Bool.and_eq_true, List.all_eq_true] at valid
    refine ⟨?_, c, rest, rfl, valid.1⟩
    exact fun colon => absurd (valid.2 ':' colon) (by decide)

theorem splitScheme?_append {before : List Char} (absent : ':' ∉ before) (rest : List Char) :
    splitScheme? (before ++ ("://".toList ++ rest)) = some (before, rest) := by
  have marks : "://".toList = [':', '/', '/'] := rfl
  induction before with
  | nil => simp [splitScheme?, marks, Text.after?]
  | cons c before ih =>
    have other : c ≠ ':' := fun same => absent (same ▸ List.mem_cons_self)
    have later := ih fun h => absent (List.mem_cons_of_mem c h)
    rw [List.cons_append, splitScheme?, later]
    simp [marks, Text.after?, Ne.symm other]

theorem dropScheme_append {scheme : List Char} (valid : isScheme scheme = true) (s : List Char) :
    dropScheme (scheme ++ ("://".toList ++ ("file".toList ++ s))) = s := by
  obtain ⟨absent, _⟩ := isScheme_cases valid
  have file : Text.after? "file".toList ("file".toList ++ s) = some s :=
    Text.after?_eq_some_iff.mpr rfl
  rw [dropScheme, splitScheme?_append absent]
  simp only [valid, if_true, file, Option.getD_some]

/-- A path that starts with a slash and a drive, which is read without that slash. -/
def SlashDrive (s : List Char) : Prop := ∃ c rest, s = '/' :: c :: ':' :: rest ∧ c.isAlpha = true

def driveSlash (path : List Char) : List Char := if hasDrive path then ['/'] else []

theorem hasDrive_iff {s : List Char} :
    hasDrive s = true ↔ ∃ c rest, s = c :: ':' :: rest ∧ c.isAlpha = true := by
  unfold hasDrive
  split
  · simp
  · rename_i other
    simp only [Bool.false_eq_true, false_iff]
    rintro ⟨c, rest, rfl, _⟩
    exact other c rest rfl

theorem hasDrive_slash (rest : List Char) : hasDrive ('/' :: rest) = false := by
  cases h : hasDrive ('/' :: rest) with
  | false => rfl
  | true =>
    obtain ⟨c, more, split, letter⟩ := hasDrive_iff.mp h
    obtain ⟨rfl, _⟩ := List.cons.inj split
    cases letter

theorem dropDriveSlash_driveSlash (path : List Char) :
    (SlashDrive path ∧ ∃ rest, path = '/' :: rest ∧ hasDrive rest = true ∧
      dropDriveSlash (driveSlash path ++ path) = rest) ∨
    (¬ SlashDrive path ∧ dropDriveSlash (driveSlash path ++ path) = path) := by
  cases path with
  | nil =>
    refine .inr ⟨?_, rfl⟩
    rintro ⟨c, rest, split, _⟩
    cases split
  | cons c rest =>
    by_cases slash : c = '/'
    · subst slash
      rw [driveSlash, hasDrive_slash]
      cases drive : hasDrive rest with
      | true =>
        obtain ⟨c, more, rfl, letter⟩ := hasDrive_iff.mp drive
        exact .inl ⟨⟨c, more, rfl, letter⟩, _, rfl, drive, by simp [dropDriveSlash, drive]⟩
      | false =>
        refine .inr ⟨?_, by simp [dropDriveSlash, drive]⟩
        rintro ⟨c, more, split, letter⟩
        obtain ⟨_, rfl⟩ := List.cons.inj split
        rw [hasDrive_iff.mpr ⟨c, more, rfl, letter⟩] at drive
        cases drive
    · have rootless : ¬ SlashDrive (c :: rest) := by
        rintro ⟨_, _, split, _⟩
        exact slash (List.cons.inj split).1
      refine .inr ⟨rootless, ?_⟩
      cases drive : hasDrive (c :: rest) with
      | true => simp [driveSlash, drive, dropDriveSlash]
      | false => simp [driveSlash, drive, dropDriveSlash, slash]

def ofParts (input : String) (parts : List Char × Option UInt32) : Except LocatorError Locator :=
  match dropDriveSlash parts.1 with
  | [] => .error (.missingPath input)
  | path => .ok ⟨Path.ofChars path, parts.2⟩

def body (l : Locator) : List Char :=
  driveSlash l.path.text.toList ++ (l.path.text.toList ++ (lineSuffix l.line).toList)

theorem ofParts_eq_ok_iff {input : String} {parts : List Char × Option UInt32} {l : Locator} :
    ofParts input parts = .ok l ↔
      dropDriveSlash parts.1 ≠ [] ∧ l = ⟨Path.ofChars (dropDriveSlash parts.1), parts.2⟩ := by
  unfold ofParts
  cases dropDriveSlash parts.1 with
  | nil =>
    constructor
    · intro h
      cases h
    · exact fun h => absurd rfl h.1
  | cons c path =>
    constructor
    · intro h
      exact ⟨List.cons_ne_nil c path, (Except.ok.inj h).symm⟩
    · exact fun h => congrArg Except.ok h.2.symm

theorem toList_write (scheme : Scheme) (l : Locator) : (scheme.write l).toList =
    scheme.name.toList ++ ("://".toList ++ ("file".toList ++ body l)) := by
  have mark : "://file".toList = "://".toList ++ "file".toList := rfl
  have slash : (if hasDrive l.path.text.toList then "/" else "").toList =
      driveSlash l.path.text.toList := by
    unfold driveSlash
    split <;> rfl
  simp only [Scheme.write, String.toList_append, mark, slash, body, List.append_assoc]

theorem read_eq {input : String} (content : Text.trim input.toList ≠ []) :
    read input = ofParts input (takeLine (dropScheme (Text.trim input.toList))) := by
  unfold read
  split
  · rename_i empty
    exact absurd empty content
  · rfl

theorem trim_write_any (scheme : Scheme) (l : Locator) :
    Text.trim (scheme.write l).toList = Text.trimLeft scheme.name.toList ++
      ("://".toList ++ ("file".toList ++ Text.trimRight (body l))) := by
  have mark : "://".toList ++ "file".toList = "://fil".toList ++ ['e'] := rfl
  have grouped : ∀ scheme s : List Char, scheme ++ ("://".toList ++ ("file".toList ++ s)) =
      (scheme ++ "://fil".toList) ++ 'e' :: s := by
    intro scheme s
    rw [← List.append_assoc "://".toList, mark]
    simp only [List.append_assoc, List.cons_append, List.nil_append]
  have left : ∀ s : List Char, Text.trimLeft (scheme.name.toList ++ ("://".toList ++ s)) =
      Text.trimLeft scheme.name.toList ++ ("://".toList ++ s) :=
    fun _ => Text.trimLeft_append_cons _ _ (by decide)
  rw [Text.trim, toList_write, left, grouped, grouped,
    Text.trimRight_append_cons _ _ (by decide)]

theorem trimLeft_scheme {scheme : List Char} (valid : isScheme scheme = true) :
    Text.trimLeft scheme = scheme := by
  obtain ⟨_, c, rest, rfl, letter⟩ := isScheme_cases valid
  exact List.dropWhile_cons_of_neg (by simp [solid_of_isAlpha letter])

theorem trim_write {scheme : Scheme} (valid : isScheme scheme.name.toList = true) (l : Locator) :
    Text.trim (scheme.write l).toList =
      scheme.name.toList ++ ("://".toList ++ ("file".toList ++ Text.trimRight (body l))) := by
  rw [trim_write_any, trimLeft_scheme valid]

theorem dropScheme_trim_write {scheme : Scheme} (valid : isScheme scheme.name.toList = true)
    (l : Locator) : dropScheme (Text.trim (scheme.write l).toList) = Text.trimRight (body l) := by
  rw [trim_write valid, dropScheme_append valid]

theorem read_write {scheme : Scheme} (valid : isScheme scheme.name.toList = true) (l : Locator) :
    read (scheme.write l) = ofParts (scheme.write l) (takeLine (Text.trimRight (body l))) := by
  have content : Text.trim (scheme.write l).toList ≠ [] := by
    obtain ⟨_, c, rest, split, _⟩ := isScheme_cases valid
    rw [trim_write valid, split]
    exact List.cons_ne_nil _ _
  rw [read_eq content, dropScheme_trim_write valid]

theorem solid_of_isDigit {c : Char} (digit : c.isDigit = true) : Text.isBlank c = false := by
  have range : 48 ≤ c.toNat ∧ c.toNat ≤ 57 := Char.isDigit_iff_toNat.mp digit
  exact Text.solid_of_visible (by omega) (by omega)

theorem takeLine_body_line (path : Path) (line : UInt32) :
    takeLine (Text.trimRight (body ⟨path, some line⟩)) =
      (driveSlash path.text.toList ++ path.text.toList, some line) := by
  have digit : ∀ c ∈ Nat.toDigits 10 line.toNat, c.isDigit = true :=
    fun c hc => Nat.isDigit_of_mem_toDigits (by decide) (by decide) hc
  have whole : body ⟨path, some line⟩ = (driveSlash path.text.toList ++ path.text.toList) ++
      ':' :: Nat.toDigits 10 line.toNat := by
    simp [body, lineSuffix, Nat.toString_eq_repr, Nat.toList_repr]
  have solid : ¬ Text.EndsBlank (body ⟨path, some line⟩) := by
    rw [whole]
    cases h : Nat.toDigits 10 line.toNat with
    | nil => exact absurd h Nat.toDigits_ne_nil
    | cons d ds =>
      rw [List.append_cons, Text.endsBlank_append_cons]
      rintro ⟨c, last, blank⟩
      have hc : c ∈ Nat.toDigits 10 line.toNat := h ▸ List.mem_of_getLast? last
      rw [solid_of_isDigit (digit c hc)] at blank
      cases blank
  rw [Text.trimRight_eq_self solid, whole,
    takeLine_append_colon _ (colon_not_mem_of_digits digit), readLine?_toDigits]

theorem trimRight_driveSlash (path s : List Char) :
    Text.trimRight (driveSlash path ++ s) = driveSlash path ++ Text.trimRight s := by
  unfold driveSlash
  split
  · exact Text.trimRight_append_cons [] s (by decide)
  · rfl

theorem trimRight_body_none (path : Path) : Text.trimRight (body ⟨path, none⟩) =
    driveSlash path.text.toList ++ Text.trimRight path.text.toList := by
  have whole : body ⟨path, none⟩ = driveSlash path.text.toList ++ path.text.toList := by
    simp [body, lineSuffix]
  rw [whole, trimRight_driveSlash]

theorem hasDrive_trimRight (s : List Char) : hasDrive (Text.trimRight s) = hasDrive s := by
  refine Bool.eq_iff_iff.mpr ?_
  rw [hasDrive_iff, hasDrive_iff]
  constructor
  · rintro ⟨c, rest, split, letter⟩
    obtain ⟨blanks, _, whole⟩ := Text.exists_trimRight s
    rw [split] at whole
    exact ⟨c, rest ++ blanks, whole, letter⟩
  · rintro ⟨c, rest, rfl, letter⟩
    exact ⟨c, Text.trimRight rest, Text.trimRight_append_cons [c] rest (by decide), letter⟩

end RouteTags.Locator
