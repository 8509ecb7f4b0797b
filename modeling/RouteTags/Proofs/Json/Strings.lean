import RouteTags.Proofs.Json.Grammar
import RouteTags.Proofs.Text.Encoding

namespace RouteTags.Json

def IsPlainByte (b : UInt8) : Prop := b ≠ quoteByte ∧ b ≠ backslashByte ∧ ¬ b < 32

theorem readBytes_plain {front : List UInt8} (plain : ∀ b ∈ front, IsPlainByte b)
    (acc rest : List UInt8) :
    readBytes acc (front ++ rest) = readBytes (front.reverse ++ acc) rest := by
  induction front generalizing acc with
  | nil => rfl
  | cons b front ih =>
    obtain ⟨noQuote, noBackslash, noControl⟩ := plain b List.mem_cons_self
    have step : readBytes acc (b :: (front ++ rest)) = readBytes (b :: acc) (front ++ rest) := by
      rw [readBytes.eq_def]
      simp only [if_neg noQuote, if_neg noBackslash, if_neg noControl]
    have later := ih (fun d h => plain d (List.mem_cons_of_mem b h)) (b :: acc)
    rw [List.cons_append, step, later]
    simp

theorem plain_ofNat {n : Nat} (small : n < 256) (printed : 32 ≤ n) (noQuote : n ≠ 34)
    (noBackslash : n ≠ 92) : IsPlainByte (UInt8.ofNat n) := by
  have value : (UInt8.ofNat n).toNat = n := by
    rw [UInt8.toNat_ofNat']
    omega
  refine ⟨?_, ?_, ?_⟩
  · intro same
    rw [← value, same] at noQuote
    exact noQuote rfl
  · intro same
    rw [← value, same] at noBackslash
    exact noBackslash rfl
  · rw [UInt8.lt_iff_toNat_lt, value]
    exact Nat.not_lt.mpr printed

theorem plain_encodeChar {c : Char} (printed : 32 ≤ c.toNat) (noQuote : c.toNat ≠ 34)
    (noBackslash : c.toNat ≠ 92) : ∀ b ∈ String.utf8EncodeChar c, IsPlainByte b := by
  have value : c.val.toNat = c.toNat := rfl
  intro b hb
  unfold String.utf8EncodeChar at hb
  simp only [value] at hb
  split at hb
  · rw [List.mem_singleton.mp hb]
    exact plain_ofNat (by omega) printed noQuote noBackslash
  · split at hb
    · simp only [List.mem_cons, List.not_mem_nil, or_false] at hb
      rcases hb with rfl | rfl <;> exact plain_ofNat (by omega) (by omega) (by omega) (by omega)
    · split at hb
      · simp only [List.mem_cons, List.not_mem_nil, or_false] at hb
        rcases hb with rfl | rfl | rfl <;>
          exact plain_ofNat (by omega) (by omega) (by omega) (by omega)
      · simp only [List.mem_cons, List.not_mem_nil, or_false] at hb
        rcases hb with rfl | rfl | rfl | rfl <;>
          exact plain_ofNat (by omega) (by omega) (by omega) (by omega)

theorem plain_unescaped {c : Char} (unescaped : Unescaped c) :
    ∀ b ∈ String.utf8EncodeChar c, IsPlainByte b := by
  obtain ⟨printed, noQuote, noBackslash⟩ := unescaped
  have other : ∀ d : Char, c ≠ d → c.toNat ≠ d.toNat :=
    fun d differs same => differs (Char.toNat_inj.mp same)
  exact plain_encodeChar printed (other '"' noQuote) (other '\\' noBackslash)

theorem skipText_plain {front : List UInt8} (plain : ∀ b ∈ front, IsPlainByte b)
    (rest : List UInt8) : skipText (front ++ rest) = skipText rest := by
  induction front with
  | nil => rfl
  | cons b front ih =>
    obtain ⟨noQuote, noBackslash, noControl⟩ := plain b List.mem_cons_self
    rw [List.cons_append, skipText.eq_def]
    simp only [if_neg noQuote, if_neg noBackslash, if_neg noControl]
    exact ih fun d h => plain d (List.mem_cons_of_mem b h)

def asciiByte (c : Char) : UInt8 := .ofNat c.toNat

theorem shortEscape?_table : ∀ x ∈ shortEscapes,
    String.utf8EncodeChar x.1 = [asciiByte x.1] ∧ String.utf8EncodeChar x.2 = [asciiByte x.2] ∧
      shortEscape? (asciiByte x.1) = some (asciiByte x.2) := by
  decide

theorem encode_shortEscape {e c : Char} (listed : (e, c) ∈ shortEscapes) (s : List Char) :
    Text.encode ('\\' :: e :: s) = backslashByte :: asciiByte e :: Text.encode s := by
  rw [Text.encode_cons, Text.encode_cons, (shortEscape?_table _ listed).1]
  rfl

theorem hexDigit?_table : ∀ x ∈ hexDigits,
    String.utf8EncodeChar x.1 = [asciiByte x.1] ∧ hexDigit? (asciiByte x.1) = some x.2 := by
  decide

theorem encode_longEscape {u : List Char} {n : Nat} (escape : LongEscape u n) :
    ∃ a b c d, Text.encode u = [backslashByte, 117, a, b, c, d] ∧ hexFour? a b c d = some n := by
  cases escape with
  | @intro a b c d p q r s first second third fourth =>
    obtain ⟨byteA, digitA⟩ := hexDigit?_table _ first
    obtain ⟨byteB, digitB⟩ := hexDigit?_table _ second
    obtain ⟨byteC, digitC⟩ := hexDigit?_table _ third
    obtain ⟨byteD, digitD⟩ := hexDigit?_table _ fourth
    refine ⟨asciiByte a, asciiByte b, asciiByte c, asciiByte d, ?_, ?_⟩
    · simp only [Text.encode_cons, byteA, byteB, byteC, byteD]
      rfl
    · simp only [hexFour?, digitA, digitB, digitC, digitD]
      rfl

theorem readBytes_shortEscape {e x : UInt8} (short : shortEscape? e = some x)
    (acc rest : List UInt8) :
    readBytes acc (backslashByte :: e :: rest) = readBytes (x :: acc) rest := by
  rw [readBytes.eq_def]
  have other : backslashByte ≠ quoteByte := by decide
  simp only [if_neg other, if_pos, short]

theorem readBytes_longEscape {a b c d : UInt8} {n : Nat} (digits : hexFour? a b c d = some n)
    (single : n < 0xD800 ∨ 0xDFFF < n) (acc rest : List UInt8) :
    readBytes acc (backslashByte :: 117 :: a :: b :: c :: d :: rest) =
      readBytes (pushCodePoint n acc) rest := by
  rw [readBytes.eq_def]
  have other : backslashByte ≠ quoteByte := by decide
  have long : shortEscape? 117 = none := by decide
  have noSurrogate : isTrailing n = false ∧ isLeading n = false := by
    simp only [isTrailing, isLeading, Bool.and_eq_false_iff, decide_eq_false_iff_not]
    omega
  simp only [if_neg other, if_pos, long, ne_eq, not_true, if_false, digits, noSurrogate.1,
    noSurrogate.2, Bool.false_eq_true]

theorem readBytes_pair {a b c d a' b' c' d' : UInt8} {m n : Nat}
    (high : hexFour? a b c d = some m) (highRange : 0xD800 ≤ m ∧ m ≤ 0xDBFF)
    (low : hexFour? a' b' c' d' = some n) (lowRange : 0xDC00 ≤ n ∧ n ≤ 0xDFFF)
    (acc rest : List UInt8) :
    readBytes acc (backslashByte :: 117 :: a :: b :: c :: d ::
        backslashByte :: 117 :: a' :: b' :: c' :: d' :: rest) =
      readBytes (pushCodePoint (pairValue m n) acc) rest := by
  rw [readBytes.eq_def]
  have other : backslashByte ≠ quoteByte := by decide
  have long : shortEscape? 117 = none := by decide
  have leads : isTrailing m = false ∧ isLeading m = true := by
    simp only [isTrailing, isLeading, Bool.and_eq_false_iff, Bool.and_eq_true,
      decide_eq_false_iff_not, decide_eq_true_eq]
    omega
  have trails : isTrailing n = true := by simp [isTrailing, lowRange]
  simp only [if_neg other, if_pos, long, ne_eq, not_true, if_false, high, low, leads.1, leads.2,
    trails, Bool.false_eq_true]

theorem skipText_shortEscape {e x : UInt8} (short : shortEscape? e = some x) (rest : List UInt8) :
    skipText (backslashByte :: e :: rest) = skipText rest := by
  rw [skipText.eq_def]
  have other : backslashByte ≠ quoteByte := by decide
  simp only [if_neg other, if_pos, short, Option.isSome_some]

theorem skipText_longEscape {a b c d : UInt8} {n : Nat} (digits : hexFour? a b c d = some n)
    (rest : List UInt8) :
    skipText (backslashByte :: 117 :: a :: b :: c :: d :: rest) = skipText rest := by
  rw [skipText.eq_def]
  have other : backslashByte ≠ quoteByte := by decide
  have long : (shortEscape? 117).isSome = false := by decide
  simp only [if_neg other, if_pos, long, ne_eq, not_true, if_false, digits, Option.isSome_some,
    Bool.false_eq_true]

theorem readBytes_denotes {s t : List Char} (denotes : Denotes s t) (acc rest : List UInt8) :
    readBytes acc (Text.encode s ++ rest) = readBytes ((Text.encode t).reverse ++ acc) rest := by
  induction denotes generalizing acc with
  | nil => rfl
  | @plain c s t unescaped _ ih =>
    rw [Text.encode_cons, List.append_assoc, readBytes_plain (plain_unescaped unescaped), ih,
      Text.encode_cons]
    simp
  | @short e c s t listed _ ih =>
    obtain ⟨-, meant, short⟩ := shortEscape?_table _ listed
    rw [encode_shortEscape listed, List.cons_append, List.cons_append, readBytes_shortEscape short,
      ih, Text.encode_cons, meant]
    simp
  | @long u n s t escape single _ ih =>
    obtain ⟨a, b, c, d, written, digits⟩ := encode_longEscape escape
    rw [Text.encode_append, written]
    simp only [List.cons_append, List.nil_append]
    rw [readBytes_longEscape digits single, ih, Text.encode_cons, pushCodePoint,
      List.reverse_append, List.append_assoc]
  | @pair u v m n s t high highRange low lowRange _ ih =>
    obtain ⟨a, b, c, d, writtenHigh, digitsHigh⟩ := encode_longEscape high
    obtain ⟨a', b', c', d', writtenLow, digitsLow⟩ := encode_longEscape low
    rw [Text.encode_append, Text.encode_append, writtenHigh, writtenLow]
    simp only [List.cons_append, List.nil_append]
    have value : pairValue m n = 0x10000 + (m - 0xD800) * 0x400 + (n - 0xDC00) := rfl
    rw [readBytes_pair digitsHigh highRange digitsLow lowRange, ih, Text.encode_cons, pushCodePoint,
      value, List.reverse_append, List.append_assoc]

theorem fromUTF8?_utf8 (s : String) : String.fromUTF8? ⟨(Text.utf8 s).toArray⟩ = some s := by
  have bytes : (⟨(Text.utf8 s).toArray⟩ : ByteArray) = s.toByteArray := by
    rw [Text.toByteArray_eq]
    apply ByteArray.ext
    apply Array.ext'
    rw [List.toList_data_toByteArray]
  rw [bytes, String.fromUTF8?, dif_pos s.isValidUTF8]
  rfl

theorem readText_denotes {s t : List Char} (denotes : Denotes s t) (rest : List UInt8) :
    readText (Text.encode s ++ quoteByte :: rest) = .ok (String.ofList t, rest) := by
  have bytes : readBytes [] (Text.encode s ++ quoteByte :: rest) =
      .ok (Text.utf8 (String.ofList t), rest) := by
    rw [readBytes_denotes denotes, readBytes.eq_def]
    simp [Text.utf8]
  rw [readText, bytes]
  simp only [bind, Except.bind, fromUTF8?_utf8]
  rfl

theorem skipText_body {s : List Char} (body : StringBody s) (rest : List UInt8) :
    skipText (Text.encode s ++ quoteByte :: rest) = .ok rest := by
  induction body with
  | nil =>
    rw [Text.encode, List.flatMap_nil, List.nil_append, skipText.eq_def]
    simp
  | plain unescaped _ ih =>
    rw [Text.encode_cons, List.append_assoc, skipText_plain (plain_unescaped unescaped), ih]
  | @short e c s listed _ ih =>
    obtain ⟨-, -, short⟩ := shortEscape?_table _ listed
    rw [encode_shortEscape listed, List.cons_append, List.cons_append, skipText_shortEscape short,
      ih]
  | long escape _ ih =>
    obtain ⟨a, b, c, d, written, digits⟩ := encode_longEscape escape
    rw [Text.encode_append, written]
    simp only [List.cons_append, List.nil_append]
    rw [skipText_longEscape digits, ih]

end RouteTags.Json
