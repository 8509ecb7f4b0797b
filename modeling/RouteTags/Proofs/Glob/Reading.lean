import RouteTags.Glob.Parse
import RouteTags.Glob.Depth
import RouteTags.Text.Line
import Mathlib.Data.List.Basic

namespace RouteTags

def Token.literally (s : List Char) : List Token := (Text.encode s).map .byte

theorem Token.literally_append (s t : List Char) :
    Token.literally (s ++ t) = Token.literally s ++ Token.literally t := by
  rw [literally, Text.encode_append, List.map_append]
  rfl

namespace Glob

def wildcards : List Char := ['*', '?', '[', ']', '\x7b', '\x7d']

def signs : List Char := '\\' :: wildcards

def Plain (s : List Char) : Prop := ∀ c ∈ s, c ∉ signs

instance (s : List Char) : Decidable (Plain s) := List.decidableBAll (· ∉ signs) s

def Progress.past (p : Progress) (s : List Char) : Progress :=
  { p with prev := s.getLast?.or p.prev, tokens := (Token.literally s).reverse ++ p.tokens }

theorem readNext_plain (dialect : Dialect) (p : Progress) {c : Char} (plain : c ∉ signs)
    (outside : p.choices = []) (s : List Char) :
    readNext dialect p c s = some (p.past [c], s) := by
  have literal : ({ p with prev := some c, tokens := pushLiteral c p.tokens } : Progress) =
      p.past [c] := by
    simp [Progress.past, pushLiteral, Token.literally, Text.encode, charBytes]
  unfold readNext
  split <;> simp_all [signs, wildcards]

theorem Progress.past_cons (p : Progress) (c : Char) (s : List Char) :
    (p.past [c]).past s = p.past (c :: s) := by
  have tokens := Token.literally_append [c] s
  rw [List.singleton_append] at tokens
  cases h : s.getLast? <;> simp [Progress.past, tokens, h, List.getLast?_cons]

theorem readAll_step {dialect : Dialect} {p q : Progress} {c : Char} {s rest : List Char}
    (next : readNext dialect p c s = some (q, rest)) (fuel : Nat) :
    readAll dialect (fuel + 1) p (c :: s) = readAll dialect fuel q rest := by
  rw [readAll, next]
  rfl

theorem readAll_plain (dialect : Dialect) (p : Progress) {s : List Char} (plain : Plain s)
    (outside : p.choices = []) (fuel : Nat) (rest : List Char) :
    readAll dialect (s.length + fuel) p (s ++ rest) = readAll dialect fuel (p.past s) rest := by
  induction s generalizing p with
  | nil => simp [Progress.past, Token.literally, Text.encode]
  | cons c s ih =>
    have first := readNext_plain dialect p (plain c List.mem_cons_self) outside (s ++ rest)
    have later := ih (p.past [c]) (fun d h => plain d (List.mem_cons_of_mem c h)) outside
    have enough : (c :: s).length + fuel = s.length + fuel + 1 := by
      rw [List.length_cons]
      omega
    rw [enough, List.cons_append, readAll_step first, later, Progress.past_cons]

theorem readAll_plain_end (dialect : Dialect) (p : Progress) {s : List Char} (plain : Plain s)
    (outside : p.choices = []) (fuel : Nat) :
    readAll dialect (s.length + fuel) p s = some (p.tokens.reverse ++ Token.literally s) := by
  have whole := readAll_plain dialect p plain outside fuel []
  rw [List.append_nil] at whole
  rw [whole, readAll.eq_def]
  simp [Progress.past, outside]

theorem readAll_star (dialect : Dialect) (p : Progress) {s : List Char} (plain : Plain s)
    (outside : p.choices = []) (fuel : Nat) :
    readAll dialect (s.length + fuel + 1) p ('*' :: s) =
      some (p.tokens.reverse ++ .many :: Token.literally s) := by
  have first : readNext dialect p '*' s =
      some ({ p with prev := some '*', tokens := .many :: p.tokens }, s) := by
    cases s with
    | nil => rfl
    | cons c s =>
      have single : c ≠ '*' := by
        rintro rfl
        exact plain '*' List.mem_cons_self (by decide)
      unfold readNext
      simp [single]
  have later := readAll_plain_end dialect
    { p with prev := some '*', tokens := .many :: p.tokens } plain outside fuel
  rw [readAll_step first, later]
  simp

def Progress.start : Progress := ⟨none, [], [], false⟩

theorem past_slash (s : List Char) :
    Progress.start.past (s ++ ['/']) =
      ⟨some '/', .byte slashByte :: (Token.literally s).reverse, [], false⟩ := by
  have slash : Token.literally ['/'] = [.byte slashByte] := rfl
  simp [Progress.past, Progress.start, Token.literally_append, slash]

theorem ofText?_eq (dialect : Dialect) (s : List Char) :
    ofText? dialect (String.ofList s) =
      (readAll dialect s.length .start s).map (⟨dialect.bound, ·⟩) := by
  rw [ofText?, String.toList_ofList]
  rfl

theorem plain_slash {s : List Char} (plain : Plain s) : Plain (s ++ ['/']) := by
  intro c hc
  rcases List.mem_append.mp hc with hc | hc
  · exact plain c hc
  · rw [List.mem_singleton.mp hc]
    decide

theorem ofText?_inside (dialect : Dialect) (s : List Char) :
    ofText? dialect (String.ofList ('*' :: '*' :: '/' :: s)) =
      (readAll dialect (s.length + 2) ⟨some '/', [.deepFirst], [], false⟩ s).map
        (⟨dialect.bound, ·⟩) := by
  have stars : readNext dialect .start '*' ('*' :: '/' :: s) =
      some (⟨some '/', [.deepFirst], [], false⟩, s) := rfl
  rw [ofText?_eq, List.length_cons, readAll_step stars]
  rfl

/-- `**/*…` -/
theorem ofText?_star (dialect : Dialect) {t : List Char} (plainEnd : Plain t) :
    ofText? dialect (String.ofList ('*' :: '*' :: '/' :: '*' :: t)) =
      some ⟨dialect.bound, .deepFirst :: .many :: Token.literally t⟩ := by
  rw [ofText?_inside]
  exact congrArg _ (readAll_star dialect _ plainEnd rfl 2)

/-- `**/…` -/
theorem ofText?_anywhere (dialect : Dialect) {s : List Char} (plain : Plain s) :
    ofText? dialect (String.ofList ('*' :: '*' :: '/' :: s)) =
      some ⟨dialect.bound, .deepFirst :: Token.literally s⟩ := by
  rw [ofText?_inside]
  exact congrArg _ (readAll_plain_end dialect _ plain rfl 2)

/-- `**/…/**` -/
theorem ofText?_under_anywhere (dialect : Dialect) {s : List Char} (plain : Plain s) :
    ofText? dialect (String.ofList ('*' :: '*' :: '/' :: (s ++ ['/', '*', '*']))) =
      some ⟨dialect.bound, .deepFirst :: (Token.literally s ++ [.deepLast])⟩ := by
  have slash : Token.literally ['/'] = [.byte slashByte] := rfl
  have behind : Progress.past ⟨some '/', [.deepFirst], [], false⟩ (s ++ ['/']) =
      ⟨some '/', .byte slashByte :: ((Token.literally s).reverse ++ [.deepFirst]), [], false⟩ := by
    simp [Progress.past, Token.literally_append, slash]
  have front := readAll_plain dialect ⟨some '/', [.deepFirst], [], false⟩ (plain_slash plain) rfl 4
    ['*', '*']
  have stars : ∀ before : List Token, readNext dialect
      ⟨some '/', .byte slashByte :: before, [], false⟩ '*' ['*'] =
        some (⟨some '*', .deepLast :: before, [], false⟩, []) := fun _ => rfl
  rw [behind, readAll_step (stars _)] at front
  have whole : s ++ ['/', '*', '*'] = s ++ ['/'] ++ ['*', '*'] := by simp
  have enough : (s ++ ['/', '*', '*']).length + 2 = (s ++ ['/']).length + 4 := by simp
  rw [ofText?_inside, enough, whole, front]
  simp [readAll]

end Glob

end RouteTags
