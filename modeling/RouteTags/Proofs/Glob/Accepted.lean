import RouteTags.Proofs.Glob.Language
import RouteTags.Proofs.Glob.Reading
import RouteTags.Proofs.Text.Encoding
import RouteTags.Proofs.Text.Search

namespace RouteTags

namespace Glob

def Named (text : String) : Prop := isNameless (Text.utf8 text) = false

theorem named_of_last {text : String}
    (last : (Text.splitAt '/' text.toList).getLast? ≠ some ['.', '.']) : Named text := by
  have dots : Text.encode ['.', '.'] = [dotByte, dotByte] := rfl
  have slashed : Text.encode ['/', '.', '.'] = [slashByte, dotByte, dotByte] := rfl
  rw [Named, isNameless, ← slashed, ← dots, Bool.or_eq_false_iff]
  constructor
  · apply beq_false_of_ne
    intro same
    apply last
    rw [Text.encode_injective same]
    rfl
  · apply Bool.eq_false_iff.mpr
    intro behind
    obtain ⟨front, whole⟩ := Text.encode_suffix_iff.mp (List.isSuffixOf_iff_suffix.mp behind)
    apply last
    rw [← whole, Text.splitAt_append_cons]
    simp [Text.splitAt]

theorem accepts_iff {g : Glob} {text : String} (named : Named text)
    (other : g.tokens ≠ [.deepFirst]) :
    g.accepts text = true ↔ Text.utf8 text ∈ Token.listLanguage g.bound g.tokens := by
  rw [accepts, acceptsBytes_iff, or_iff_right other, named]
  simp

theorem someFolders_mul_anything : someFolders * anything = anything := by
  ext s
  exact ⟨fun _ => mem_anything s, fun h => ⟨[], .inl rfl, s, h, rfl⟩⟩

theorem allBytes_admits : allBytes (admits false) = anything := by
  have same : admits false = fun _ => true := rfl
  rw [same, anything]

theorem listLanguage_append (bound : Bool) (ts us : List Token) :
    Token.listLanguage bound (ts ++ us) =
      Token.listLanguage bound ts * Token.listLanguage bound us := by
  induction ts with
  | nil => rw [List.nil_append, Token.listLanguage, one_mul]
  | cons t ts ih => rw [List.cons_append, Token.listLanguage, ih, Token.listLanguage, mul_assoc]

theorem listLanguage_literally (bound : Bool) (s : List Char) :
    Token.listLanguage bound (Token.literally s) = {Text.encode s} := by
  have bytes : ∀ bs : List UInt8,
      Token.listLanguage bound (bs.map .byte) = ({bs} : Language UInt8) := by
    intro bs
    induction bs with
    | nil => rfl
    | cons b bs ih =>
      rw [List.map_cons, Token.listLanguage, ih]
      ext t
      rw [Token.language, mem_oneByte_mul]
      constructor
      · rintro ⟨c, u, rfl, same, rfl⟩
        rw [eq_of_beq same]
        rfl
      · rintro rfl
        exact ⟨b, bs, rfl, beq_self_eq_true b, rfl⟩
  exact bytes _

theorem mem_singleton_mul {w s : List UInt8} {L : Language UInt8} :
    s ∈ ({w} : Language UInt8) * L ↔ ∃ t ∈ L, w ++ t = s := by
  rw [Language.mem_mul]
  constructor
  · rintro ⟨_, rfl, t, member, whole⟩
    exact ⟨t, member, whole⟩
  · rintro ⟨t, member, whole⟩
    exact ⟨w, rfl, t, member, whole⟩

theorem accepts_under {s : List Char} {text : String} (named : Named text) :
    (⟨false, Token.literally s ++ [.deepLast]⟩ : Glob).accepts text = true ↔
      s ++ ['/'] <+: text.toList := by
  have other : Token.literally s ++ [Token.deepLast] ≠ [.deepFirst] := by
    intro same
    have last := congrArg List.getLast? same
    simp at last
  have slash : Text.encode ['/'] = [slashByte] := rfl
  rw [accepts_iff named other, listLanguage_append, listLanguage_literally, mem_singleton_mul,
    ← Text.encode_prefix_iff, Text.encode_append, slash, Text.utf8]
  simp only [Token.listLanguage, Token.language, mul_one, mem_aSlash_mul]
  constructor
  · rintro ⟨_, ⟨t, -, rfl⟩, whole⟩
    exact ⟨t, by rw [← whole, List.append_assoc]; rfl⟩
  · rintro ⟨t, whole⟩
    exact ⟨slashByte :: t, ⟨t, mem_anything t, rfl⟩, by rw [← whole, List.append_assoc]; rfl⟩

theorem accepts_star {s : List Char} {text : String} (named : Named text) :
    (⟨false, .deepFirst :: .many :: Token.literally s⟩ : Glob).accepts text = true ↔
      s <:+ text.toList := by
  rw [accepts_iff named (by simp), Token.listLanguage, Token.listLanguage, Token.language,
    Token.language, allBytes_admits, ← mul_assoc, someFolders_mul_anything, mem_anything_mul,
    listLanguage_literally, ← Text.encode_suffix_iff]
  exact ⟨fun ⟨_, same, suffix⟩ => same ▸ suffix, fun suffix => ⟨_, rfl, suffix⟩⟩

theorem mem_someFolders_mul {L : Language UInt8} {s : List UInt8} :
    s ∈ someFolders * L ↔ s ∈ L ∨ ∃ t ∈ L, slashByte :: t <:+ s := by
  rw [someFolders, add_mul, one_mul, mul_assoc, Language.mem_add, mem_anything_mul]
  apply or_congr_right
  constructor
  · rintro ⟨_, slashed, suffix⟩
    obtain ⟨t, member, rfl⟩ := mem_aSlash_mul.mp slashed
    exact ⟨t, member, suffix⟩
  · rintro ⟨t, member, suffix⟩
    exact ⟨_, mem_aSlash_mul.mpr ⟨t, member, rfl⟩, suffix⟩

theorem accepts_anywhere {s : List Char} (slashless : '/' ∉ s) (content : s ≠ []) {text : String}
    (named : Named text) :
    (⟨false, .deepFirst :: Token.literally s⟩ : Glob).accepts text = true ↔
      (Text.splitAt '/' text.toList).getLast? = some s := by
  have other : Token.deepFirst :: Token.literally s ≠ [.deepFirst] := by
    intro same
    have none : Token.literally s = Token.literally [] := (List.cons.inj same).2
    obtain ⟨c, s, rfl⟩ := List.exists_cons_of_ne_nil content
    rw [Token.literally, Text.encode_cons, List.map_append] at none
    exact String.utf8EncodeChar_ne_nil (List.map_eq_nil_iff.mp (List.append_eq_nil_iff.mp none).1)
  have slashed : slashByte :: Text.encode s = Text.encode ('/' :: s) := rfl
  have single : ∀ t : List UInt8, t ∈ ({Text.encode s} : Language UInt8) ↔ t = Text.encode s :=
    fun _ => Iff.rfl
  rw [accepts_iff named other, Token.listLanguage, Token.language, mem_someFolders_mul,
    listLanguage_literally, Text.getLast?_splitAt_iff slashless]
  simp only [single, exists_eq_left, slashed, Text.encode_suffix_iff, Text.utf8]
  exact or_congr_left ⟨fun same => Text.encode_injective same, congrArg Text.encode⟩

theorem accepts_under_anywhere {s : List Char} (slashless : '/' ∉ s) {text : String}
    (named : Named text) :
    (⟨false, .deepFirst :: (Token.literally s ++ [.deepLast])⟩ : Glob).accepts text = true ↔
      s ∈ (Text.splitAt '/' text.toList).dropLast := by
  have other : Token.deepFirst :: (Token.literally s ++ [Token.deepLast]) ≠ [.deepFirst] := by
    simp
  have slash : Text.encode ['/'] = [slashByte] := rfl
  have folder : ∀ t, t ∈ Token.listLanguage false (Token.literally s ++ [Token.deepLast]) ↔
      Text.encode (s ++ ['/']) <+: t := by
    intro t
    rw [listLanguage_append, listLanguage_literally, mem_singleton_mul, Text.encode_append, slash]
    simp only [Token.listLanguage, Token.language, mul_one, mem_aSlash_mul]
    constructor
    · rintro ⟨_, ⟨rest, -, rfl⟩, rfl⟩
      exact ⟨rest, by simp⟩
    · rintro ⟨rest, rfl⟩
      exact ⟨slashByte :: rest, ⟨rest, mem_anything rest, rfl⟩, by simp⟩
  rw [accepts_iff named other, Token.listLanguage, Token.language, mem_someFolders_mul,
    Text.mem_dropLast_splitAt_iff slashless, Text.utf8]
  simp only [folder, Text.encode_prefix_iff]
  apply or_congr_right
  constructor
  · rintro ⟨t, inside, front, whole⟩
    -- The slash in front of the name is where a character begins.
    obtain ⟨before, behind, cut, -, rest⟩ := Text.encode_cut whole.symm (by
      intro b hb
      rw [← Option.some.inj hb]
      decide)
    have slashed : Text.encode ('/' :: (s ++ ['/'])) <+: Text.encode behind := by
      rw [rest]
      exact List.cons_prefix_cons.mpr ⟨rfl, inside⟩
    refine ⟨before, ?_⟩
    rw [cut, List.prefix_append_right_inj]
    exact Text.encode_prefix_iff.mp slashed
  · rintro ⟨front, back, whole⟩
    refine ⟨Text.encode (s ++ ['/'] ++ back), Text.encode_prefix_iff.mpr (List.prefix_append _ _), ?_⟩
    have slashed : slashByte :: Text.encode (s ++ ['/'] ++ back) =
      Text.encode ('/' :: (s ++ ['/'] ++ back)) := rfl
    rw [slashed, Text.encode_suffix_iff, ← whole]
    exact ⟨front, by simp⟩

end Glob

end RouteTags
