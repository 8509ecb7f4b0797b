import RouteTags.Proofs.Json.Strings
import Mathlib.Data.Bool.AllAny

namespace RouteTags.Json

theorem ne_of_digit {b d : UInt8} (digit : isDigit b = true) (other : isDigit d = false) : b ≠ d := by
  rintro rfl
  rw [digit] at other
  cases other

def EndsNumber (rest : List UInt8) : Prop :=
  ∀ b ∈ rest.head?, isDigit b = false ∧ b ≠ 46 ∧ b ≠ 101 ∧ b ≠ 69

theorem digit_table : ∀ c ∈ "0123456789".toList, String.utf8EncodeChar c = [asciiByte c] ∧
    isDigit (asciiByte c) = true ∧ (c ≠ '0' → asciiByte c ≠ 48) :=
  List.all_iff_forall_prop.mp (by decide)

theorem exists_digits {s : List Char} (digits : Digits s) : ∃ b bs, Text.encode s = b :: bs ∧
    (∀ d ∈ b :: bs, isDigit d = true) ∧ (s.head? ≠ some '0' → b ≠ 48) := by
  obtain ⟨content, all⟩ := digits
  have every : ∀ d ∈ Text.encode s, isDigit d = true := by
    intro d hd
    obtain ⟨c, member, inside⟩ := List.mem_flatMap.mp hd
    obtain ⟨byte, digit, -⟩ := digit_table c (all c member)
    rw [byte, List.mem_singleton] at inside
    rw [inside]
    exact digit
  obtain ⟨c, s, rfl⟩ := List.exists_cons_of_ne_nil content
  obtain ⟨byte, -, other⟩ := digit_table c (all c List.mem_cons_self)
  have bytes : Text.encode (c :: s) = asciiByte c :: Text.encode s := by
    rw [Text.encode_cons, byte]
    rfl
  exact ⟨asciiByte c, Text.encode s, bytes, bytes ▸ every, fun h => other (by simpa using h)⟩

theorem exists_whole {s : List Char} (whole : IsWhole s) :
    ∃ b bs, Text.encode s = b :: bs ∧ isDigit b = true := by
  rcases whole with rfl | ⟨digits, -⟩
  · exact ⟨48, [], rfl, rfl⟩
  · obtain ⟨b, bs, bytes, all, -⟩ := exists_digits digits
    exact ⟨b, bs, bytes, all b List.mem_cons_self⟩

theorem takeDigits_append {digits rest : List UInt8} (all : ∀ b ∈ digits, isDigit b = true)
    (stops : ∀ b ∈ rest.head?, isDigit b = false) : takeDigits (digits ++ rest) = (digits, rest) := by
  rw [takeDigits, List.takeWhile_append_of_pos all, List.dropWhile_append_of_pos all]
  cases rest with
  | nil => simp
  | cons b rest => simp [stops b rfl]

theorem readWhole_encode (early : Cause) {s : List Char} (whole : IsWhole s) {rest : List UInt8}
    (stops : ∀ b ∈ rest.head?, isDigit b = false) :
    ∃ digits, readWhole early (Text.encode s ++ rest) = .ok (digits, rest) := by
  rcases whole with rfl | ⟨digits, other⟩
  · have zero : Text.encode ['0'] = [48] := rfl
    refine ⟨[48], ?_⟩
    rw [zero, List.singleton_append, readWhole.eq_def]
    cases rest with
    | nil => simp
    | cons b rest => simp [stops b rfl]
  · obtain ⟨b, bs, bytes, all, notZero⟩ := exists_digits digits
    have taken := takeDigits_append all stops
    refine ⟨b :: bs, ?_⟩
    rw [List.cons_append] at taken
    rw [bytes, List.cons_append, readWhole.eq_def]
    simp only [if_neg (notZero other), if_pos (all b List.mem_cons_self), taken]

theorem readFraction_encode (early : Cause) {s : List Char} (digits : Digits s) {rest : List UInt8}
    (stops : ∀ b ∈ rest.head?, isDigit b = false) :
    ∃ fraction, readFraction early (Text.encode s ++ rest) = .ok (fraction, rest) := by
  obtain ⟨b, bs, bytes, all, -⟩ := exists_digits digits
  refine ⟨b :: bs, ?_⟩
  rw [bytes, readFraction, takeDigits_append all stops]

theorem readExponent_encode (early : Cause) {sign s : List Char} (signed : sign ∈ [[], ['+'], ['-']])
    (digits : Digits s) {rest : List UInt8} (stops : ∀ b ∈ rest.head?, isDigit b = false) :
    ∃ exponent, readExponent early (Text.encode (sign ++ s) ++ rest) = .ok (exponent, rest) := by
  obtain ⟨b, bs, bytes, all, -⟩ := exists_digits digits
  have taken := takeDigits_append all stops
  have digit := all b List.mem_cons_self
  have plus : Text.encode ['+'] = [43] := rfl
  have minus : Text.encode ['-'] = [45] := rfl
  have unsigned : b ≠ 43 ∧ b ≠ 45 := by
    constructor <;> rintro rfl <;> exact absurd digit (by decide)
  rw [List.cons_append] at taken
  simp only [List.mem_cons, List.not_mem_nil, or_false] at signed
  rcases signed with rfl | rfl | rfl
  · rw [List.nil_append, bytes, readExponent.eq_def]
    simp [unsigned.1, unsigned.2, digit, taken]
  · rw [Text.encode_append, plus, bytes, readExponent.eq_def]
    simp [digit, taken]
  · rw [Text.encode_append, minus, bytes, readExponent.eq_def]
    simp [digit, taken]

theorem letter_table : ∀ c ∈ ['e', 'E'], String.utf8EncodeChar c = [asciiByte c] ∧
    isDigit (asciiByte c) = false ∧ asciiByte c ≠ 46 ∧ (asciiByte c = 101 ∨ asciiByte c = 69) :=
  List.all_iff_forall_prop.mp (by decide)

theorem stops_exponent {s : List Char} (isExponent : IsExponent s) {rest : List UInt8}
    (ends : EndsNumber rest) :
    ∀ b ∈ (Text.encode s ++ rest).head?, isDigit b = false ∧ b ≠ 46 := by
  rcases isExponent with rfl | ⟨e, sign, digits, letter, -, -, rfl⟩
  · intro b hb
    exact ⟨(ends b hb).1, (ends b hb).2.1⟩
  · obtain ⟨byte, noDigit, noPoint, -⟩ := letter_table e letter
    rw [Text.encode_cons, byte]
    intro b hb
    rw [← Option.some.inj hb]
    exact ⟨noDigit, noPoint⟩

def readPoint (early : Cause) (s : List UInt8) : Except Stop (List UInt8 × List UInt8) :=
  match s with
  | 46 :: rest => readFraction early rest
  | s => pure ([], s)

def readPower (early : Cause) (whole fraction s : List UInt8) :
    Except Stop (Numeral × List UInt8) :=
  match s with
  | b :: rest =>
    if b = 101 ∨ b = 69 then do
      let (exponent, s) ← readExponent early rest
      pure (⟨whole, fraction, some exponent⟩, s)
    else pure (⟨whole, fraction, none⟩, s)
  | [] => pure (⟨whole, fraction, none⟩, [])

theorem readNumeral_eq (early : Cause) (s : List UInt8) : readNumeral early s = (do
    let (whole, s) ← readWhole early s
    let (fraction, s) ← readPoint early s
    readPower early whole fraction s) := by
  rw [readNumeral]
  cases readWhole early s with
  | error e => rfl
  | ok read =>
    obtain ⟨whole, s⟩ := read
    simp only [bind, Except.bind]
    split
    · rfl
    · rename_i noPoint
      have absent : readPoint early s = pure ([], s) := by
        unfold readPoint
        split
        · exact absurd rfl (noPoint _)
        · rfl
      rw [absent]
      rfl

theorem readPoint_encode (early : Cause) {s : List Char} (isFraction : IsFraction s)
    {rest : List UInt8} (stops : ∀ b ∈ rest.head?, isDigit b = false ∧ b ≠ 46) :
    ∃ fraction, readPoint early (Text.encode s ++ rest) = .ok (fraction, rest) := by
  rcases isFraction with rfl | ⟨digits, isDigits, rfl⟩
  · refine ⟨[], ?_⟩
    cases rest with
    | nil => rfl
    | cons b rest => simp [Text.encode, readPoint, (stops b rfl).2, pure, Except.pure]
  · exact readFraction_encode early isDigits fun b hb => (stops b hb).1

theorem readPower_encode (early : Cause) (whole fraction : List UInt8) {s : List Char}
    (isExponent : IsExponent s) {rest : List UInt8} (ends : EndsNumber rest) :
    ∃ n, readPower early whole fraction (Text.encode s ++ rest) = .ok (n, rest) := by
  rcases isExponent with rfl | ⟨e, sign, digits, letter, signed, isDigits, rfl⟩
  · cases rest with
    | nil => exact ⟨_, rfl⟩
    | cons b rest =>
      obtain ⟨-, -, small, large⟩ := ends b rfl
      simp [Text.encode, readPower, small, large, pure, Except.pure]
  · obtain ⟨x, read⟩ := readExponent_encode early signed isDigits fun b hb => (ends b hb).1
    obtain ⟨byte, -, -, marks⟩ := letter_table e letter
    refine ⟨⟨whole, fraction, some x⟩, ?_⟩
    rw [Text.encode_cons, byte, List.append_assoc, List.singleton_append, readPower, if_pos marks]
    simp only [read, bind, Except.bind]
    rfl

theorem readNumeral_encode (early : Cause) {whole fraction exponent : List Char}
    (isWhole : IsWhole whole) (isFraction : IsFraction fraction) (isExponent : IsExponent exponent)
    {rest : List UInt8} (ends : EndsNumber rest) :
    ∃ n, readNumeral early (Text.encode (whole ++ (fraction ++ exponent)) ++ rest) =
      .ok (n, rest) := by
  have stops := stops_exponent isExponent ends
  have stopsWhole : ∀ b ∈ (Text.encode fraction ++ (Text.encode exponent ++ rest)).head?,
      isDigit b = false := by
    rcases isFraction with rfl | ⟨digits, -, rfl⟩
    · exact fun b hb => (stops b hb).1
    · intro b hb
      rw [← Option.some.inj hb]
      rfl
  obtain ⟨w, first⟩ := readWhole_encode early isWhole stopsWhole
  obtain ⟨f, second⟩ := readPoint_encode early isFraction stops
  obtain ⟨n, third⟩ := readPower_encode early w f isExponent ends
  refine ⟨n, ?_⟩
  rw [readNumeral_eq, Text.encode_append, Text.encode_append, List.append_assoc, List.append_assoc]
  simp only [first, second, third, bind, Except.bind]

end RouteTags.Json
