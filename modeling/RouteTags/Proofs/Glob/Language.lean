import RouteTags.Glob.Match
import Mathlib.Computability.Language

/-! The texts that a glob stands for, as a language over bytes, and the matcher: a column that tells
the remainders of one language becomes, under a token, one that tells those of the product. -/
namespace RouteTags

open Glob

namespace Glob

def oneByte (p : UInt8 → Bool) : Language UInt8 := {s | ∃ b, p b = true ∧ s = [b]}

def allBytes (p : UInt8 → Bool) : Language UInt8 := {s | ∀ b ∈ s, p b = true}

def anything : Language UInt8 := allBytes fun _ => true

def aSlash : Language UInt8 := oneByte (· == slashByte)

def someFolders : Language UInt8 := 1 + anything * aSlash

@[simp] theorem mem_anything (s : List UInt8) : s ∈ anything := fun _ _ => rfl

theorem mem_oneByte_mul {p : UInt8 → Bool} {L : Language UInt8} {s : List UInt8} :
    s ∈ oneByte p * L ↔ ∃ b t, s = b :: t ∧ p b = true ∧ t ∈ L := by
  rw [Language.mem_mul]
  constructor
  · rintro ⟨_, ⟨b, good, rfl⟩, t, member, rfl⟩
    exact ⟨b, t, rfl, good, member⟩
  · rintro ⟨b, t, rfl, good, member⟩
    exact ⟨[b], ⟨b, good, rfl⟩, t, member, rfl⟩

theorem mem_aSlash_mul {L : Language UInt8} {s : List UInt8} :
    s ∈ aSlash * L ↔ ∃ t ∈ L, s = slashByte :: t := by
  rw [aSlash, mem_oneByte_mul]
  constructor
  · rintro ⟨b, t, rfl, slash, member⟩
    exact ⟨t, member, by rw [eq_of_beq slash]⟩
  · rintro ⟨t, member, rfl⟩
    exact ⟨slashByte, t, rfl, beq_self_eq_true slashByte, member⟩

theorem mem_anything_mul {L : Language UInt8} {s : List UInt8} :
    s ∈ anything * L ↔ ∃ t ∈ L, t <:+ s := by
  rw [Language.mem_mul]
  constructor
  · rintro ⟨x, -, t, member, rfl⟩
    exact ⟨t, member, List.suffix_append x t⟩
  · rintro ⟨t, member, x, rfl⟩
    exact ⟨x, mem_anything x, t, member, rfl⟩

theorem nil_mem_allBytes_mul {p : UInt8 → Bool} {L : Language UInt8} :
    [] ∈ allBytes p * L ↔ [] ∈ L := by
  constructor
  · rintro ⟨x, -, t, member, whole⟩
    rwa [← (List.append_eq_nil_iff.mp whole).2]
  · intro member
    exact ⟨[], fun _ h => absurd h List.not_mem_nil, [], member, rfl⟩

theorem mem_allBytes_mul_cons {p : UInt8 → Bool} {L : Language UInt8} {b : UInt8}
    {s : List UInt8} :
    b :: s ∈ allBytes p * L ↔ b :: s ∈ L ∨ p b = true ∧ s ∈ allBytes p * L := by
  simp only [Language.mem_mul]
  constructor
  · rintro ⟨x, run, t, member, whole⟩
    cases x with
    | nil => exact .inl (by simpa [← whole] using member)
    | cons d x =>
      obtain ⟨rfl, rfl⟩ := List.cons.inj whole
      exact .inr ⟨run d List.mem_cons_self, x, fun e h => run e (List.mem_cons_of_mem d h),
        t, member, rfl⟩
  · rintro (member | ⟨good, x, run, t, member, rfl⟩)
    · exact ⟨[], fun _ h => absurd h List.not_mem_nil, b :: s, member, rfl⟩
    · refine ⟨b :: x, ?_, t, member, rfl⟩
      intro d h
      rcases List.mem_cons.mp h with rfl | h
      · exact good
      · exact run d h

end Glob

mutual

def Token.language (bound : Bool) : Token → Language UInt8
  | .byte b => oneByte (· == b)
  | .any => oneByte (admits bound)
  | .many => allBytes (admits bound)
  | .deepFirst => someFolders
  | .deepLast => aSlash * anything
  | .deepMiddle => aSlash * someFolders
  | .oneOf negated ranges => oneByte fun b => inRanges ranges b != negated
  | .choice branches =>
    if Token.choiceVoid branches then 1 else Token.choiceLanguage bound branches

def Token.choiceLanguage (bound : Bool) : List (List Token) → Language UInt8
  | [] => 0
  | branch :: branches =>
    let others := Token.choiceLanguage bound branches
    if Token.listVoid branch then others else Token.listLanguage bound branch + others

def Token.listLanguage (bound : Bool) : List Token → Language UInt8
  | [] => 1
  | t :: ts => t.language bound * Token.listLanguage bound ts

end

namespace Column

def reaches (p : UInt8 → Bool) (test : List UInt8 → Bool) : List UInt8 → Bool
  | [] => test []
  | b :: s => test (b :: s) || p b && reaches p test s

theorem run_of (p : UInt8 → Bool) (test : List UInt8 → Bool) (text : List UInt8) :
    run p text (of test text) = of (reaches p test) text := by
  induction text with
  | nil => rfl
  | cons b s ih =>
    have behind : first (of (reaches p test) s) = reaches p test s := first_of _ s
    simp only [run, of, List.tail_cons, ih, behind]
    rfl

theorem reaches_iff {p : UInt8 → Bool} {test : List UInt8 → Bool} {L : Language UInt8}
    (same : ∀ s, test s = true ↔ s ∈ L) {s : List UInt8} :
    reaches p test s = true ↔ s ∈ allBytes p * L := by
  induction s with
  | nil => rw [reaches, same, nil_mem_allBytes_mul]
  | cons b s ih => rw [reaches, Bool.or_eq_true, Bool.and_eq_true, ih, same, mem_allBytes_mul_cons]

def Tells (c : Column) (text : List UInt8) (L : Language UInt8) : Prop :=
  ∃ test, c = of test text ∧ ∀ s, test s = true ↔ s ∈ L

namespace Tells

variable {c d : Column} {text : List UInt8} {L M : Language UInt8}

theorem first_iff (tells : c.Tells text L) : c.first = true ↔ text ∈ L := by
  obtain ⟨test, rfl, same⟩ := tells
  rw [first_of, same]

theorem empty (text : List UInt8) : (of List.isEmpty text).Tells text 1 :=
  ⟨List.isEmpty, rfl, fun s => by rw [Language.mem_one, List.isEmpty_iff]⟩

theorem nowhere (text : List UInt8) : (of (fun _ => false) text).Tells text 0 :=
  ⟨fun _ => false, rfl, fun s => by simp [Language.notMem_zero]⟩

theorem either (left : c.Tells text L) (right : d.Tells text M) :
    (c.either d).Tells text (L + M) := by
  obtain ⟨k, rfl, hk⟩ := left
  obtain ⟨l, rfl, hl⟩ := right
  refine ⟨fun s => k s || l s, either_of k l text, ?_⟩
  intro s
  rw [Bool.or_eq_true, hk, hl, Language.mem_add]

theorem one (p : UInt8 → Bool) (tells : c.Tells text L) :
    (Column.one p text c).Tells text (oneByte p * L) := by
  obtain ⟨test, rfl, same⟩ := tells
  refine ⟨_, one_of p test text, ?_⟩
  intro s
  rw [mem_oneByte_mul]
  cases s with
  | nil => simp
  | cons b s => simp [same]

theorem run (p : UInt8 → Bool) (tells : c.Tells text L) :
    (Column.run p text c).Tells text (allBytes p * L) := by
  obtain ⟨test, rfl, same⟩ := tells
  exact ⟨reaches p test, run_of p test text, fun s => reaches_iff same⟩

theorem slash (tells : c.Tells text L) : (Column.slash text c).Tells text (aSlash * L) :=
  one _ tells

theorem deep (tells : c.Tells text L) : (Column.deep text c).Tells text (someFolders * L) := by
  rw [someFolders, add_mul, one_mul, mul_assoc]
  exact tells.either (run _ tells.slash)

end Tells

end Column

section

variable (bound : Bool) {text : List UInt8}

mutual

theorem Token.tells_inFront {c : Column} {L : Language UInt8} (tells : c.Tells text L) :
    ∀ t : Token, (t.inFront bound text c).Tells text (t.language bound * L)
  | .byte _ => tells.one _
  | .any => tells.one _
  | .many => tells.run _
  | .deepFirst => tells.deep
  | .deepLast => by
    rw [Token.language, mul_assoc]
    exact (tells.run _).slash
  | .deepMiddle => by
    rw [Token.language, mul_assoc]
    exact tells.deep.slash
  | .oneOf _ _ => tells.one _
  | .choice branches => by
    rw [Token.inFront, Token.language]
    split
    · rwa [one_mul]
    · exact Token.tells_choiceInFront tells branches

theorem Token.tells_choiceInFront {c : Column} {L : Language UInt8} (tells : c.Tells text L) :
    ∀ branches : List (List Token), (Token.choiceInFront bound text c branches).Tells text
      (Token.choiceLanguage bound branches * L)
  | [] => by
    rw [Token.choiceInFront, Token.choiceLanguage, zero_mul]
    exact .nowhere text
  | branch :: branches => by
    have others := Token.tells_choiceInFront tells branches
    rw [Token.choiceInFront, Token.choiceLanguage]
    split
    · exact others
    · rw [add_mul]
      exact (Token.tells_listInFront tells branch).either others

theorem Token.tells_listInFront {c : Column} {L : Language UInt8} (tells : c.Tells text L) :
    ∀ tokens : List Token, (Token.listInFront bound text c tokens).Tells text
      (Token.listLanguage bound tokens * L)
  | [] => by
    rw [Token.listInFront, Token.listLanguage, one_mul]
    exact tells
  | t :: ts => by
    rw [Token.listInFront, Token.listLanguage, mul_assoc]
    exact Token.tells_inFront (Token.tells_listInFront tells ts) t

end

end

namespace Glob

/-- The matcher decides the language of the tokens, but for a lone `**/` and for a path that has no
last name. -/
theorem acceptsBytes_iff (g : Glob) (s : List UInt8) :
    g.acceptsBytes s = true ↔ g.tokens = [.deepFirst] ∨
      (isNameless s && g.form.asksForName) = false ∧
        s ∈ Token.listLanguage g.bound g.tokens := by
  have told := (Token.tells_listInFront g.bound (.empty s) g.tokens).first_iff
  rw [mul_one] at told
  unfold acceptsBytes
  split
  · rename_i only
    simp [only]
  · rename_i other
    rw [or_iff_right other, ← told]
    split
    · rename_i nameless
      simp [nameless]
    · rename_i named
      simp [named]

end Glob

end RouteTags
