import RouteTags.Proofs.Json.Numbers

/-! Passing over values. A well-formed value is passed over to what comes after it, at any depth and in
any layout: the frames that are open around it stay open. -/
namespace RouteTags.Json

def IsLayout (layout : List UInt8) : Prop := ∀ b ∈ layout, isLayout b = true

theorem layout_table : ∀ c ∈ [' ', '\t', '\n', '\r'], String.utf8EncodeChar c = [asciiByte c] ∧
    isLayout (asciiByte c) = true ∧ isDigit (asciiByte c) = false ∧ asciiByte c ≠ 46 ∧
      asciiByte c ≠ 101 ∧ asciiByte c ≠ 69 :=
  List.all_iff_forall_prop.mp (by decide)

theorem isLayout_encode {s : List Char} (spaces : Spaces s) : IsLayout (Text.encode s) := by
  intro b hb
  obtain ⟨c, member, inside⟩ := List.mem_flatMap.mp hb
  obtain ⟨byte, blank, -⟩ := layout_table c (spaces c member)
  rw [byte, List.mem_singleton] at inside
  rw [inside]
  exact blank

theorem skipLayout_append {layout : List UInt8} (blank : IsLayout layout) (s : List UInt8) :
    skipLayout (layout ++ s) = skipLayout s := List.dropWhile_append_of_pos blank

theorem skipLayout_cons {b : UInt8} (solid : isLayout b = false) (s : List UInt8) :
    skipLayout (b :: s) = b :: s := List.dropWhile_cons_of_neg (by simp [solid])

theorem skipLayout_spaces {s : List Char} (spaces : Spaces s) {b : UInt8}
    (solid : isLayout b = false) (rest : List UInt8) :
    skipLayout (Text.encode s ++ b :: rest) = b :: rest := by
  rw [skipLayout_append (isLayout_encode spaces), skipLayout_cons solid]

theorem readWord_append (word rest : List UInt8) : readWord word (word ++ rest) = .ok rest := by
  induction word with
  | nil => rfl
  | cons b word ih => rw [List.cons_append, readWord, if_pos rfl, ih]

def IsScalar (s : List Char) : Prop :=
  ∃ b bs, Text.encode s = b :: bs ∧ isLayout b = false ∧ b ∉ [openList, openRecord, closeList] ∧
    ∀ rest, EndsNumber rest → skipScalar b (bs ++ rest) = .ok rest

theorem isScalar_word : ∀ s ∈ ["null".toList, "true".toList, "false".toList], IsScalar s := by
  intro s listed
  simp only [List.mem_cons, List.not_mem_nil, or_false] at listed
  rcases listed with rfl | rfl | rfl
  · exact ⟨110, "ull".toUTF8.toList, by decide +kernel, by decide, by decide,
      fun rest _ => readWord_append _ rest⟩
  · exact ⟨116, "rue".toUTF8.toList, by decide +kernel, by decide, by decide,
      fun rest _ => readWord_append _ rest⟩
  · exact ⟨102, "alse".toUTF8.toList, by decide +kernel, by decide, by decide,
      fun rest _ => readWord_append _ rest⟩

theorem isScalar_text {s : List Char} (body : StringBody s) : IsScalar ('"' :: (s ++ ['"'])) := by
  refine ⟨quoteByte, Text.encode (s ++ ['"']), rfl, by decide, by decide, ?_⟩
  intro rest _
  have quote : Text.encode ['"'] = [quoteByte] := rfl
  rw [Text.encode_append, quote, List.append_assoc]
  exact skipText_body body rest

theorem skipScalar_digit {b : UInt8} (digit : isDigit b = true) (s : List UInt8) :
    skipScalar b s = (readNumeral .invalidNumber (b :: s)).map (·.2) := by
  have other : ∀ d, isDigit d = false → b ≠ d := fun d => ne_of_digit digit
  rw [skipScalar, if_neg (other 110 rfl), if_neg (other 116 rfl), if_neg (other 102 rfl),
    if_neg (other 45 rfl), if_pos digit]

theorem isScalar_number {s : List Char} (isNumber : IsNumber s) : IsScalar s := by
  obtain ⟨signed, isWhole, isFraction, isExponent⟩ := isNumber
  rename_i sign whole fraction exponent
  have read : ∀ rest, EndsNumber rest → (readNumeral .invalidNumber
      (Text.encode (whole ++ (fraction ++ exponent)) ++ rest)).map (·.2) = .ok rest := by
    intro rest ends
    obtain ⟨n, read⟩ := readNumeral_encode .invalidNumber isWhole isFraction isExponent ends
    rw [read]
    rfl
  simp only [List.mem_cons, List.not_mem_nil, or_false] at signed
  rcases signed with rfl | rfl
  · obtain ⟨b, bs, bytes, digit⟩ := exists_whole isWhole
    have other : ∀ d, isDigit d = false → b ≠ d := fun d => ne_of_digit digit
    have whole : Text.encode (whole ++ (fraction ++ exponent)) =
        b :: (bs ++ Text.encode (fraction ++ exponent)) := by
      rw [Text.encode_append, bytes, List.cons_append]
    rw [whole] at read
    refine ⟨b, _, whole, ?_, ?_, ?_⟩
    · simp [isLayout, other 32 rfl, other 10 rfl, other 9 rfl, other 13 rfl]
    · simp [other openList rfl, other openRecord rfl, other closeList rfl]
    · intro rest ends
      rw [skipScalar_digit digit]
      exact read rest ends
  · exact ⟨45, _, rfl, by decide, by decide, read⟩

def Frame.opening : Frame → UInt8
  | list => openList
  | record => openRecord

theorem encode_left (f : Frame) (s : List Char) :
    Text.encode (f.left :: s) = f.opening :: Text.encode s := by
  cases f <;> rfl

theorem encode_right (f : Frame) : Text.encode [f.right] = [f.closing] := by
  cases f <;> rfl

def resume (fuel : Nat) (frames : List Frame) (s : List UInt8) : Except Stop (List UInt8) := do
  match ← closeFrames frames s with
  | ([], s) => .ok s
  | (f :: frames, s) => skipWithin fuel (f :: frames) (← skipKey f s)

def enter (f : Frame) (fuel : Nat) (frames : List Frame) (s : List UInt8) :
    Except Stop (List UInt8) := do
  skipWithin fuel (f :: frames) (← skipKey f s)

section

variable (fuel : Nat) (frames : List Frame) {before : List Char} (leading : Spaces before)

include leading

theorem skipWithin_scalar {b : UInt8} (solid : isLayout b = false)
    (other : b ∉ [openList, openRecord, closeList]) {s rest : List UInt8}
    (skips : skipScalar b s = .ok rest) :
    skipWithin (fuel + 1) frames (Text.encode before ++ b :: s) = resume fuel frames rest := by
  have scalar : ¬ (b = openList ∨ b = openRecord) := by
    rintro (rfl | rfl) <;> simp at other
  rw [skipWithin, skipLayout_spaces leading solid]
  simp only [if_neg scalar, skips, bind, Except.bind]
  rfl

theorem skipWithin_empty (f : Frame) {inside : List Char} (spaces : Spaces inside)
    (rest : List UInt8) :
    skipWithin (fuel + 1) frames
        (Text.encode before ++ f.opening :: (Text.encode inside ++ f.closing :: rest)) =
      resume fuel frames rest := by
  have solid : isLayout f.opening = false := by cases f <;> rfl
  have solidEnd : isLayout f.closing = false := by cases f <;> rfl
  rw [skipWithin, skipLayout_spaces leading solid]
  cases f <;> simp only [Frame.opening, skipLayout_spaces spaces solidEnd] <;> rfl

theorem skipWithin_full (f : Frame) {s rest : List UInt8} {c : UInt8}
    (content : skipLayout s = c :: rest) (inside : c ≠ f.closing) :
    skipWithin (fuel + 1) frames (Text.encode before ++ f.opening :: s) =
      enter f fuel frames (c :: rest) := by
  have solid : isLayout f.opening = false := by cases f <;> rfl
  have kind : (if f.opening = openList then Frame.list else .record) = f := by cases f <;> rfl
  have opens : f.opening = openList ∨ f.opening = openRecord := by cases f <;> simp [Frame.opening]
  rw [skipWithin, skipLayout_spaces leading solid]
  simp only [if_pos opens, kind, content, if_neg inside]
  rfl

end

theorem endsNumber_spaces {s : List Char} (spaces : Spaces s) {b : UInt8}
    (sign : b ∈ [commaByte, closeList, closeRecord]) (rest : List UInt8) :
    EndsNumber (Text.encode s ++ b :: rest) := by
  have signs : ∀ b ∈ [commaByte, closeList, closeRecord],
      isDigit b = false ∧ b ≠ 46 ∧ b ≠ 101 ∧ b ≠ 69 := List.all_iff_forall_prop.mp (by decide)
  cases s with
  | nil =>
    intro d hd
    rw [← Option.some.inj hd]
    exact signs b sign
  | cons c s =>
    obtain ⟨byte, -, ends⟩ := layout_table c (spaces c List.mem_cons_self)
    rw [Text.encode_cons, byte]
    intro d hd
    rw [← Option.some.inj hd]
    exact ends

theorem resume_comma (fuel : Nat) (f : Frame) (frames : List Frame) {after : List Char}
    (trailing : Spaces after) (s : List UInt8) :
    resume fuel (f :: frames) (Text.encode after ++ commaByte :: s) = enter f fuel frames s := by
  have solid : isLayout commaByte = false := by decide
  rw [resume, closeFrames, skipLayout_spaces trailing solid]
  rfl

theorem resume_close (fuel : Nat) (f : Frame) (frames : List Frame) {after : List Char}
    (trailing : Spaces after) (s : List UInt8) :
    resume fuel (f :: frames) (Text.encode after ++ f.closing :: s) = resume fuel frames s := by
  have solid : isLayout f.closing = false := by cases f <;> rfl
  have other : f.closing ≠ commaByte := by cases f <;> decide
  rw [resume, closeFrames, skipLayout_spaces trailing solid]
  simp only [if_neg other, if_pos]
  rfl

theorem enter_key {f : Frame} {key : List Char} (isKey : IsKey f key) (fuel : Nat)
    (frames : List Frame) (s : List UInt8) :
    enter f fuel frames (Text.encode key ++ s) = skipWithin fuel (f :: frames) s := by
  cases isKey with
  | item => rfl
  | @member before name after leading body trailing =>
    have quote : isLayout quoteByte = false := by decide
    have colon : isLayout colonByte = false := by decide
    have written : Text.encode (before ++ '"' :: (name ++ '"' :: (after ++ [':']))) ++ s =
        Text.encode before ++ quoteByte ::
          (Text.encode name ++ quoteByte :: (Text.encode after ++ colonByte :: s)) := by
      have quoted : ∀ t, Text.encode ('"' :: t) = quoteByte :: Text.encode t := fun _ => rfl
      have last : Text.encode [':'] = [colonByte] := rfl
      simp only [Text.encode_append, quoted, last, List.append_assoc, List.cons_append,
        List.nil_append]
    rw [written, enter, skipKey, skipLayout_spaces leading quote]
    simp only [ne_eq, not_true_eq_false, if_false, skipText_body body, bind, Except.bind,
      skipLayout_spaces trailing colon, if_pos]
    rfl

theorem exists_first {s : List Char} (value : WellFormed .value s) :
    ∃ b bs, Text.encode s = b :: bs ∧ isLayout b = false ∧ b ≠ closeList := by
  have scalar : IsScalar s → ∃ b bs, Text.encode s = b :: bs ∧ isLayout b = false ∧
      b ≠ closeList := by
    rintro ⟨b, bs, bytes, solid, other, -⟩
    exact ⟨b, bs, bytes, solid, fun same => other (by simp [same])⟩
  have bracket : ∀ (f : Frame) (t : List Char), ∃ b bs, Text.encode (f.left :: t) = b :: bs ∧
      isLayout b = false ∧ b ≠ closeList := by
    intro f t
    exact ⟨f.opening, _, encode_left f t, by cases f <;> rfl, by cases f <;> decide⟩
  cases value with
  | word listed => exact scalar (isScalar_word s listed)
  | number isNumber => exact scalar (isScalar_number isNumber)
  | text body => exact scalar (isScalar_text body)
  | empty f => exact bracket f _
  | full f => exact bracket f _

theorem exists_inside {f : Frame} {s : List Char} (inside : WellFormed (.inside f) s)
    (rest : List UInt8) : ∃ c t, skipLayout (Text.encode s ++ rest) = c :: t ∧ c ≠ f.closing := by
  have start : ∀ {key before value : List Char} (more : List UInt8), IsKey f key → Spaces before →
      WellFormed .value value → ∃ c t, skipLayout
        (Text.encode key ++ (Text.encode before ++ (Text.encode value ++ more))) = c :: t ∧
          c ≠ f.closing := by
    intro key before value more isKey leading isValue
    cases isKey with
    | item =>
      obtain ⟨b, bs, bytes, solid, other⟩ := exists_first isValue
      rw [bytes]
      exact ⟨b, _, skipLayout_spaces leading solid _, other⟩
    | member leading' =>
      have quote : isLayout quoteByte = false := by decide
      rw [Text.encode_append, List.append_assoc]
      exact ⟨quoteByte, _, skipLayout_spaces leading' quote _, by decide⟩
  cases inside with
  | last isKey leading isValue =>
    simp only [Text.encode_append, List.append_assoc]
    exact start _ isKey leading isValue
  | more isKey leading isValue =>
    simp only [Text.encode_append, List.append_assoc]
    exact start _ isKey leading isValue

theorem skipLayout_skipLayout (s : List UInt8) : skipLayout (skipLayout s) = skipLayout s := by
  unfold skipLayout
  cases h : s.dropWhile isLayout with
  | nil => rfl
  | cons b t =>
    have solid : isLayout b = false := by
      simpa [h] using List.head?_dropWhile_not isLayout s
    exact List.dropWhile_cons_of_neg (by simp [solid])

theorem enter_skipLayout (f : Frame) (fuel : Nat) (frames : List Frame) (s : List UInt8) :
    enter f (fuel + 1) frames (skipLayout s) = enter f (fuel + 1) frames s := by
  cases f with
  | list =>
    simp only [enter, skipKey, bind, Except.bind]
    rw [skipWithin, skipWithin, skipLayout_skipLayout]
  | record => simp only [enter, skipKey, skipLayout_skipLayout]

/-- A value is passed over in front of any rest, whatever frames are open, in no more rounds than it
has bytes; and so is what stands inside a frame, with its end. -/
def Skipped : Part → List Char → Prop
  | .value, s => ∃ k, 1 ≤ k ∧ k ≤ (Text.encode s).length ∧
      ∀ fuel frames before rest, Spaces before → EndsNumber rest →
        skipWithin (fuel + k) frames (Text.encode before ++ (Text.encode s ++ rest)) =
          resume fuel frames rest
  | .inside f, s => ∃ k, 1 ≤ k ∧ k ≤ (Text.encode s).length ∧
      ∀ fuel frames rest, enter f (fuel + k) frames (Text.encode s ++ f.closing :: rest) =
        resume fuel frames rest

theorem skipped_scalar {s : List Char} (isScalar : IsScalar s) : Skipped .value s := by
  obtain ⟨b, bs, bytes, solid, other, skips⟩ := isScalar
  refine ⟨1, Nat.le_refl 1, by simp [bytes], ?_⟩
  intro fuel frames before rest leading ends
  rw [bytes, List.cons_append]
  exact skipWithin_scalar fuel frames leading solid other (skips rest ends)

theorem skipped_wellFormed {part : Part} {s : List Char} (wellFormed : WellFormed part s) :
    Skipped part s := by
  induction wellFormed with
  | word listed => exact skipped_scalar (isScalar_word _ listed)
  | number isNumber => exact skipped_scalar (isScalar_number isNumber)
  | text body => exact skipped_scalar (isScalar_text body)
  | @empty f s spaces =>
    refine ⟨1, Nat.le_refl 1, by simp [encode_left], ?_⟩
    intro fuel frames before rest leading _
    rw [encode_left, Text.encode_append, encode_right, List.cons_append, List.append_assoc]
    exact skipWithin_empty fuel frames leading f spaces rest
  | @full f s inside ih =>
    obtain ⟨k, some, few, skips⟩ := ih
    refine ⟨k + 1, by omega, by simp [encode_left]; omega, ?_⟩
    intro fuel frames before rest leading _
    obtain ⟨c, t, content, other⟩ := exists_inside inside (f.closing :: rest)
    obtain ⟨k, rfl⟩ := Nat.exists_eq_add_one.mpr some
    have entered := skips fuel frames rest
    rw [← Nat.add_assoc, ← enter_skipLayout, content] at entered
    rw [encode_left, Text.encode_append, encode_right, List.cons_append, List.append_assoc,
      ← Nat.add_assoc, List.singleton_append,
      skipWithin_full _ frames leading f content other]
    exact entered
  | @last f key before value after isKey leading _ trailing ih =>
    obtain ⟨k, some, few, skips⟩ := ih
    refine ⟨k, some, by simp; omega, ?_⟩
    intro fuel frames rest
    have ends : EndsNumber (Text.encode after ++ f.closing :: rest) :=
      endsNumber_spaces trailing (by cases f <;> decide) rest
    simp only [Text.encode_append, List.append_assoc]
    rw [enter_key isKey, skips _ _ _ _ leading ends, resume_close fuel f frames trailing]
  | @more f key before value after others isKey leading _ trailing _ ihValue ihOthers =>
    obtain ⟨k, some, few, skips⟩ := ihValue
    obtain ⟨l, -, fewOthers, skipsOthers⟩ := ihOthers
    have comma : ∀ t, Text.encode (',' :: t) = commaByte :: Text.encode t := fun _ => rfl
    refine ⟨l + k, by omega, by simp [comma]; omega, ?_⟩
    intro fuel frames rest
    have ends : EndsNumber (Text.encode after ++ commaByte ::
        (Text.encode others ++ f.closing :: rest)) :=
      endsNumber_spaces trailing (by simp) _
    simp only [Text.encode_append, comma, List.append_assoc, List.cons_append]
    rw [enter_key isKey, ← Nat.add_assoc, skips _ _ _ _ leading ends,
      resume_comma _ f frames trailing, skipsOthers]

theorem skipValue_wellFormed {before s : List Char} (leading : Spaces before)
    (wellFormed : WellFormed .value s) {rest : List UInt8} (ends : EndsNumber rest) :
    skipValue (Text.encode before ++ (Text.encode s ++ rest)) = .ok rest := by
  obtain ⟨k, -, few, skips⟩ := skipped_wellFormed wellFormed
  have enough : (Text.encode before ++ (Text.encode s ++ rest)).length + 1 =
      (Text.encode before ++ (Text.encode s ++ rest)).length + 1 - k + k := by
    simp only [List.length_append]
    omega
  rw [skipValue, enough, skips _ _ _ _ leading ends]
  rfl

end RouteTags.Json
