import RouteTags.Proofs.Glob.Reading

namespace RouteTags.Glob

def unescaped : List Char → List Char
  | '\\' :: c :: s => c :: unescaped s
  | c :: s => c :: unescaped s
  | [] => []

/-- No wildcards, no classes and no alternations. -/
def Tame (s : List Char) : Prop := ∀ c ∈ s, c ∉ wildcards

instance (s : List Char) : Decidable (Tame s) := List.decidableBAll (· ∉ wildcards) s

theorem unescaped_cons {c : Char} (other : c ≠ '\\') (s : List Char) :
    unescaped (c :: s) = c :: unescaped s := by
  rw [unescaped]
  intro d t same
  exact absurd same other

theorem exists_unescaped_slash (s : List Char) :
    ∃ front, unescaped (s ++ ['/']) = front ++ ['/'] := by
  induction s using unescaped.induct with
  | case1 c s ih =>
    obtain ⟨front, ends⟩ := ih
    exact ⟨c :: front, congrArg (c :: ·) ends⟩
  | case2 c s single ih =>
    obtain ⟨front, ends⟩ := ih
    by_cases backslash : c = '\\'
    · subst backslash
      cases s with
      | nil => exact ⟨[], rfl⟩
      | cons d s => exact absurd rfl (single d s rfl)
    · exact ⟨c :: front, by rw [List.cons_append, unescaped_cons backslash, ends, List.cons_append]⟩
  | case3 => exact ⟨[], rfl⟩

theorem countP_unescaped {p : Char → Bool} (blind : p '\\' = false) (s : List Char) :
    (unescaped s).countP p = s.countP p := by
  induction s using unescaped.induct with
  | case1 c s ih => simp [unescaped, List.countP_cons, ih, blind]
  | case2 c s single ih => rw [unescaped.eq_2 c s single, List.countP_cons, List.countP_cons, ih]
  | case3 => rfl

theorem readNext_escape (dialect : Dialect) (p : Progress) (c : Char) (s : List Char) :
    readNext dialect p '\\' (c :: s) = some (p.past [c], s) := by
  simp [readNext, Progress.past, pushLiteral, Token.literally, Text.encode, charBytes]

theorem closed_of_cons {c : Char} {s : List Char} (closed : (c :: s).getLast? ≠ some '\\') :
    s.getLast? ≠ some '\\' := by
  cases s with
  | nil => simp
  | cons d s => simpa using closed

theorem readAll_tame (dialect : Dialect) (p : Progress) {s : List Char} (tame : Tame s)
    (outside : p.choices = []) (closed : s.getLast? ≠ some '\\') :
    ∃ extra, ∀ fuel rest, readAll dialect (s.length + fuel) p (s ++ rest) =
      readAll dialect (fuel + extra) (p.past (unescaped s)) rest := by
  induction s using unescaped.induct generalizing p with
  | case1 c s ih =>
    obtain ⟨extra, later⟩ := ih (p.past [c])
      (fun d h => tame d (List.mem_cons_of_mem _ (List.mem_cons_of_mem c h))) outside
      (closed_of_cons (closed_of_cons closed))
    refine ⟨extra + 1, ?_⟩
    intro fuel rest
    have enough : ('\\' :: c :: s).length + fuel = s.length + (fuel + 1) + 1 := by
      simp only [List.length_cons]
      omega
    rw [enough, List.cons_append, List.cons_append, readAll_step (readNext_escape ..), later,
      Progress.past_cons, unescaped, Nat.add_assoc, Nat.add_comm 1]
  | case2 c s single ih =>
    have plain : c ∉ signs := by
      intro sign
      rcases List.mem_cons.mp sign with rfl | wild
      · cases s with
        | nil => exact closed rfl
        | cons d s => exact single d s rfl rfl
      · exact tame c List.mem_cons_self wild
    obtain ⟨extra, later⟩ := ih (p.past [c]) (fun d h => tame d (List.mem_cons_of_mem c h))
      outside (closed_of_cons closed)
    refine ⟨extra, ?_⟩
    intro fuel rest
    have enough : (c :: s).length + fuel = s.length + fuel + 1 := by
      rw [List.length_cons]
      omega
    rw [enough, List.cons_append, readAll_step (readNext_plain dialect p plain outside _), later,
      Progress.past_cons, unescaped.eq_2 c s single]
  | case3 => exact ⟨0, fun fuel rest => by simp [Progress.past, Token.literally, Text.encode, unescaped]⟩

theorem ofText?_under_tame (dialect : Dialect) {s front : List Char} (tame : Tame s)
    (means : unescaped (s ++ ['/']) = front ++ ['/']) :
    ofText? dialect (String.ofList (s ++ ['/', '*', '*'])) =
      some ⟨dialect.bound, Token.literally front ++ [.deepLast]⟩ := by
  have tameSlash : Tame (s ++ ['/']) := by
    intro c hc
    rcases List.mem_append.mp hc with hc | hc
    · exact tame c hc
    · rw [List.mem_singleton.mp hc]
      decide
  obtain ⟨extra, read⟩ := readAll_tame dialect .start tameSlash rfl (by simp)
  have stars : readNext dialect
      ⟨some '/', .byte slashByte :: (Token.literally front).reverse, [], false⟩ '*' ['*'] =
        some (⟨some '*', .deepLast :: (Token.literally front).reverse, [], false⟩, []) := rfl
  have enough : (s ++ ['/', '*', '*']).length = (s ++ ['/']).length + 2 := by simp
  have left : 2 + extra = extra + 1 + 1 := by omega
  have whole : s ++ ['/', '*', '*'] = s ++ ['/'] ++ ['*', '*'] := by simp
  rw [ofText?_eq, enough, whole, read, means, past_slash, left, readAll_step stars]
  simp [readAll]

end RouteTags.Glob
