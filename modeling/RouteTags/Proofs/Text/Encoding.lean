import RouteTags.Text.Line
import Mathlib.Data.List.Basic

namespace RouteTags.Text

/-- Does a character begin here, or is this the end? -/
def Begins (bytes : List UInt8) : Prop := ∀ b ∈ bytes.head?, b.IsUTF8FirstByte

theorem encode_cons (c : Char) (s : List Char) :
    encode (c :: s) = String.utf8EncodeChar c ++ encode s := rfl

theorem encode_injective {s t : List Char} (same : encode s = encode t) : s = t := by
  apply String.ofList_injective
  apply String.toByteArray_inj.mp
  exact congrArg List.toByteArray same

theorem begins_encode (s : List Char) : Begins (encode s) := by
  cases s with
  | nil => simp [Begins, encode]
  | cons c s =>
    intro b hb
    have long : 0 < (String.utf8EncodeChar c).length :=
      List.length_pos_iff.mpr String.utf8EncodeChar_ne_nil
    rw [encode_cons, List.head?_append_of_ne_nil _ String.utf8EncodeChar_ne_nil,
      List.head?_eq_getElem?, List.getElem?_eq_getElem long] at hb
    rw [← Option.some.inj hb]
    exact UInt8.isUTF8FirstByte_getElem_utf8EncodeChar.mpr rfl

theorem encodeChar_cut {c : Char} {x y : List UInt8} (whole : String.utf8EncodeChar c = x ++ y)
    (begins : Begins y) : x = [] ∨ y = [] := by
  cases y with
  | nil => exact .inr rfl
  | cons b y =>
    have inside : x.length < (String.utf8EncodeChar c).length := by
      rw [whole]
      simp
    have there : (String.utf8EncodeChar c)[x.length] = b := by
      simp [whole]
    have first : (String.utf8EncodeChar c)[x.length].IsUTF8FirstByte := by
      rw [there]
      exact begins b rfl
    have front := UInt8.isUTF8FirstByte_getElem_utf8EncodeChar.mp first
    exact .inl (List.length_eq_zero_iff.mp front)

theorem encode_cut {s : List Char} {x y : List UInt8} (whole : encode s = x ++ y)
    (begins : Begins y) : ∃ t u, s = t ++ u ∧ encode t = x ∧ encode u = y := by
  induction s generalizing x with
  | nil =>
    obtain ⟨rfl, rfl⟩ := List.append_eq_nil_iff.mp whole.symm
    exact ⟨[], [], rfl, rfl, rfl⟩
  | cons c s ih =>
    rw [encode_cons] at whole
    rcases List.append_eq_append_iff.mp whole with ⟨x', rfl, later⟩ | ⟨y', char, rfl⟩
    · obtain ⟨t, u, rfl, ht, hu⟩ := ih later
      exact ⟨c :: t, u, rfl, by rw [encode_cons, ht], hu⟩
    · -- The cut lies within the bytes of the first character, so at one of its ends.
      have front : Begins y' := by
        intro b hb
        apply begins b
        cases y' with
        | nil => cases hb
        | cons d y' => exact hb
      rcases encodeChar_cut char front with rfl | rfl
      · exact ⟨[], c :: s, rfl, rfl, by rw [encode_cons, char, List.nil_append]⟩
      · exact ⟨[c], s, rfl, by simpa [encode] using char, rfl⟩

theorem encode_cons_inj {c d : Char} {s : List Char} {y : List UInt8}
    (same : encode (c :: s) = String.utf8EncodeChar d ++ y) : c = d ∧ encode s = y := by
  have read : ∀ (e : Char) (z : List UInt8),
      (String.utf8EncodeChar e ++ z).toByteArray.utf8DecodeChar? 0 = some e := by
    intro e z
    rw [List.toByteArray_append]
    exact ByteArray.utf8DecodeChar?_utf8EncodeChar_append
  rw [encode_cons] at same
  have first := read c (encode s)
  rw [same, read d y] at first
  obtain rfl := Option.some.inj first
  exact ⟨rfl, List.append_cancel_left same⟩

theorem encode_eq_append {s front : List Char} {y : List UInt8}
    (whole : encode s = encode front ++ y) : ∃ t, s = front ++ t ∧ encode t = y := by
  induction front generalizing s with
  | nil => exact ⟨s, rfl, whole⟩
  | cons d front ih =>
    cases s with
    | nil =>
      rw [encode_cons, List.append_assoc] at whole
      exact absurd (List.append_eq_nil_iff.mp whole.symm).1 String.utf8EncodeChar_ne_nil
    | cons c s =>
      rw [encode_cons d, List.append_assoc] at whole
      obtain ⟨rfl, later⟩ := encode_cons_inj whole
      obtain ⟨t, rfl, rest⟩ := ih later
      exact ⟨t, rfl, rest⟩

theorem encode_prefix_iff {s t : List Char} : encode t <+: encode s ↔ t <+: s := by
  constructor
  · rintro ⟨y, whole⟩
    obtain ⟨rest, rfl, -⟩ := encode_eq_append whole.symm
    exact List.prefix_append t rest
  · rintro ⟨rest, rfl⟩
    exact ⟨encode rest, by rw [encode_append]⟩

theorem encode_suffix_iff {s t : List Char} : encode t <:+ encode s ↔ t <:+ s := by
  constructor
  · rintro ⟨x, whole⟩
    obtain ⟨front, u, rfl, -, same⟩ := encode_cut whole.symm (begins_encode t)
    exact ⟨front, by rw [encode_injective same]⟩
  · rintro ⟨front, rfl⟩
    exact ⟨encode front, by rw [encode_append]⟩

theorem toList_loop (bytes : ByteArray) (i : Nat) (read : List UInt8) :
    ByteArray.toList.loop bytes i read = read.reverse ++ bytes.data.toList.drop i := by
  fun_induction ByteArray.toList.loop bytes i read with
  | case1 i read inside ih =>
    have there : i < bytes.data.toList.length := by simpa using inside
    have byte : bytes.get! i = bytes.data.toList[i] := by
      have : bytes.get! i = bytes.data[i]! := rfl
      rw [this, getElem!_pos bytes.data i (by simpa using inside)]
      rfl
    rw [ih, byte, List.drop_eq_getElem_cons there]
    simp
  | case2 i read outside =>
    have beyond : bytes.data.toList.length ≤ i := by simpa using outside
    rw [List.drop_eq_nil_of_le beyond, List.append_nil]

theorem toByteArray_eq (s : String) : s.toByteArray = (utf8 s).toByteArray := by
  conv => lhs; rw [← String.ofList_toList (s := s)]
  rfl

theorem toList_toUTF8 (s : String) : s.toUTF8.toList = utf8 s := by
  have bytes : s.toUTF8 = (utf8 s).toByteArray := toByteArray_eq s
  rw [ByteArray.toList, toList_loop, bytes, List.toList_data_toByteArray]
  rfl

end RouteTags.Text
