import RouteTags.Text.UpperCase
import RouteTags.Proofs.Text.Trim
import Mathlib.Data.Nat.Bitwise

namespace RouteTags.Text

/-- A set of code points as a number whose bits tell its members. -/
def bitsOf (codes : List Nat) : Nat := codes.foldr (fun n bits => 2 ^ n ||| bits) 0

theorem testBit_bitsOf (codes : List Nat) (n : Nat) :
    (bitsOf codes).testBit n = codes.contains n := by
  induction codes with
  | nil => simp [bitsOf]
  | cons m codes ih =>
    have step : bitsOf (m :: codes) = 2 ^ m ||| bitsOf codes := rfl
    rw [step, Nat.testBit_or, ih, Nat.testBit_two_pow, List.contains_cons]
    by_cases same : m = n
    · simp [same]
    · simp [same, Ne.symm same]

theorem not_mem_of_bitsOf {codes others : List Nat} (apart : bitsOf codes &&& bitsOf others = 0)
    {n : Nat} (member : n ∈ codes) : n ∉ others := by
  intro other
  have both : (bitsOf codes &&& bitsOf others).testBit n = true := by
    simp [Nat.testBit_and, testBit_bitsOf, member, other]
  rw [apart, Nat.zero_testBit] at both
  cases both

def CapitalRun.letters (run : CapitalRun) : List Nat :=
  (List.range ((run.last - run.first) / run.step + 1)).map fun k => run.first + run.step * k

def CapitalRun.capitals (run : CapitalRun) : List Nat :=
  (List.range ((run.last - run.first) / run.step + 1)).map fun k => run.target + run.step * k

def casedCodes : List Nat := capitalRuns.flatMap (·.letters) ++ capitalTexts.map (·.1)

def capitalCodes : List Nat := capitalRuns.flatMap (·.capitals) ++ capitalTexts.flatMap (·.2)

def blankCodes : List Nat := blankRanges.flatMap fun r => List.range' r.1 (r.2 + 1 - r.1)

theorem cased_apart_capital : bitsOf casedCodes &&& bitsOf capitalCodes = 0 := by
  decide +kernel

theorem letters_apart_rest :
    bitsOf (casedCodes ++ capitalCodes) &&& bitsOf (List.range 65 ++ blankCodes) = 0 := by
  decide +kernel

theorem isValidChar_capitalCodes : ∀ n ∈ capitalCodes, n.isValidChar := by
  decide +kernel

theorem capitalTexts_ne_nil : ∀ entry ∈ capitalTexts, entry.2 ≠ [] := by
  decide +kernel

theorem isBlank_iff {c : Char} : isBlank c = true ↔ c.toNat ∈ blankCodes := by
  simp only [isBlank, List.any_eq_true, Bool.and_eq_true, decide_eq_true_eq, blankCodes,
    List.mem_flatMap, List.mem_range'_1]
  constructor
  · rintro ⟨r, member, low, high⟩
    exact ⟨r, member, low, by omega⟩
  · rintro ⟨r, member, low, high⟩
    exact ⟨r, member, low, by omega⟩

theorem solid_of_letter {c : Char} (letter : c.toNat ∈ casedCodes ++ capitalCodes) :
    isBlank c = false ∧ 65 ≤ c.toNat := by
  have apart := not_mem_of_bitsOf letters_apart_rest letter
  simp only [List.mem_append, List.mem_range, not_or] at apart
  exact ⟨Bool.eq_false_iff.mpr fun blank => apart.2 (isBlank_iff.mp blank),
    Nat.le_of_not_lt apart.1⟩

theorem CapitalRun.mem_of_capital? {run : CapitalRun} {n m : Nat} (h : run.capital? n = some m) :
    n ∈ run.letters ∧ m ∈ run.capitals := by
  unfold capital? at h
  split at h
  · rename_i inside
    obtain ⟨low, high, step⟩ := inside
    obtain rfl := Option.some.inj h
    have place := Nat.div_add_mod (n - run.first) run.step
    have short : (n - run.first) / run.step ≤ (run.last - run.first) / run.step :=
      Nat.div_le_div_right (by omega)
    have listed := List.mem_range.mpr (Nat.lt_succ_of_le short)
    exact ⟨List.mem_map.mpr ⟨_, listed, by omega⟩, List.mem_map.mpr ⟨_, listed, by omega⟩⟩
  · cases h

theorem capitals_cases (n : Nat) : capitals n = [n] ∨
    n ∈ casedCodes ∧ capitals n ≠ [] ∧ ∀ m ∈ capitals n, m ∈ capitalCodes := by
  unfold capitals
  split
  · rename_i m found
    obtain ⟨run, listed, capital⟩ := List.exists_of_findSome?_eq_some found
    obtain ⟨letter, member⟩ := run.mem_of_capital? capital
    refine .inr ⟨?_, by simp, ?_⟩
    · exact List.mem_append_left _ (List.mem_flatMap.mpr ⟨run, listed, letter⟩)
    · intro k hk
      obtain rfl := List.mem_singleton.mp hk
      exact List.mem_append_left _ (List.mem_flatMap.mpr ⟨run, listed, member⟩)
  · cases found : capitalTexts.lookup n with
    | none => exact .inl rfl
    | some text =>
      have listed : (n, text) ∈ capitalTexts := by
        obtain ⟨front, back, split, _⟩ := List.lookup_eq_some_iff.mp found
        simp [split]
      refine .inr ⟨?_, capitalTexts_ne_nil _ listed, ?_⟩
      · exact List.mem_append_right _ (List.mem_map.mpr ⟨_, listed, rfl⟩)
      · intro m hm
        exact List.mem_append_right _ (List.mem_flatMap.mpr ⟨_, listed, hm⟩)

theorem upper_cases (c : Char) : upper c = [c] ∨
    c.toNat ∈ casedCodes ∧ upper c ≠ [] ∧ ∀ d ∈ upper c, d.toNat ∈ capitalCodes := by
  rcases capitals_cases c.toNat with alone | ⟨cased, nonempty, capital⟩
  · left
    rw [upper, alone, List.map_singleton, Char.ofNat_toNat]
  · refine .inr ⟨cased, by simpa [upper] using nonempty, ?_⟩
    intro d hd
    obtain ⟨m, hm, rfl⟩ := List.mem_map.mp hd
    have valid := isValidChar_capitalCodes m (capital m hm)
    have back : (Char.ofNat m).toNat = m := by
      rw [Char.ofNat, dif_pos valid]
      rfl
    rw [back]
    exact capital m hm

theorem upper_of_capital {c : Char} (capital : c.toNat ∈ capitalCodes) : upper c = [c] := by
  rcases upper_cases c with alone | ⟨cased, _, _⟩
  · exact alone
  · exact absurd capital (not_mem_of_bitsOf cased_apart_capital cased)

theorem toUpper_eq_self {s : List Char} (fixed : ∀ c ∈ s, upper c = [c]) : toUpper s = s := by
  induction s with
  | nil => rfl
  | cons c s ih =>
    rw [toUpper_cons, fixed c List.mem_cons_self,
      ih fun d hd => fixed d (List.mem_cons_of_mem c hd)]
    rfl

theorem toUpper_upper (c : Char) : toUpper (upper c) = upper c := by
  rcases upper_cases c with alone | ⟨_, _, capital⟩
  · rw [alone, toUpper_cons, alone]
    rfl
  · exact toUpper_eq_self fun d hd => upper_of_capital (capital d hd)

theorem toUpper_toUpper (s : List Char) : toUpper (toUpper s) = toUpper s := by
  induction s with
  | nil => rfl
  | cons c s ih => rw [toUpper_cons, toUpper_append, toUpper_upper, ih]

theorem countP_toUpper {p : Char → Bool} (low : ∀ c, p c = true → c.toNat < 65) (s : List Char) :
    (toUpper s).countP p = s.countP p := by
  have letter : ∀ {c : Char}, c.toNat ∈ casedCodes ++ capitalCodes → ¬ p c = true := by
    intro c hc counted
    have high := (solid_of_letter hc).2
    have := low c counted
    omega
  induction s with
  | nil => rfl
  | cons c s ih =>
    rw [toUpper_cons, List.countP_append, ih]
    rcases upper_cases c with alone | ⟨cased, _, capital⟩
    · rw [alone, ← List.countP_append]
      rfl
    · rw [List.countP_cons_of_neg (letter (List.mem_append_left _ cased)),
        List.countP_eq_zero.mpr fun d hd => letter (List.mem_append_right _ (capital d hd)),
        Nat.zero_add]

theorem dropWhile_flatMap {f : Char → List Char} (keeps : ∀ c, isBlank c = true → f c = [c])
    (solid : ∀ c, isBlank c = false → ∃ d ∈ (f c).head?, isBlank d = false) (s : List Char) :
    (s.flatMap f).dropWhile isBlank = (s.dropWhile isBlank).flatMap f := by
  induction s with
  | nil => rfl
  | cons c s ih =>
    cases blank : isBlank c with
    | true =>
      rw [List.flatMap_cons, keeps c blank, List.dropWhile_cons_of_pos blank, ← ih]
      exact List.dropWhile_cons_of_pos blank
    | false =>
      obtain ⟨d, first, visible⟩ := solid c blank
      obtain ⟨rest, split⟩ := List.head?_eq_some_iff.mp first
      rw [List.dropWhile_cons_of_neg (by simp [blank]), List.flatMap_cons, split, List.cons_append,
        List.dropWhile_cons_of_neg (by simp [visible])]

theorem upper_of_blank {c : Char} (blank : isBlank c = true) : upper c = [c] := by
  rcases upper_cases c with alone | ⟨cased, _, _⟩
  · exact alone
  · have visible := (solid_of_letter (List.mem_append_left capitalCodes cased)).1
    rw [visible] at blank
    cases blank

theorem solid_upper {c : Char} (visible : isBlank c = false) :
    upper c ≠ [] ∧ ∀ d ∈ upper c, isBlank d = false := by
  rcases upper_cases c with alone | ⟨_, nonempty, capital⟩
  · simp [alone, visible]
  · exact ⟨nonempty, fun d hd => (solid_of_letter (List.mem_append_right _ (capital d hd))).1⟩

theorem trimLeft_toUpper (s : List Char) : trimLeft (toUpper s) = toUpper (trimLeft s) := by
  apply dropWhile_flatMap (fun c => upper_of_blank)
  intro c visible
  obtain ⟨nonempty, all⟩ := solid_upper visible
  exact ⟨(upper c).head nonempty, List.head?_eq_some_head nonempty,
    all _ (List.head_mem nonempty)⟩

theorem trimRight_toUpper (s : List Char) : trimRight (toUpper s) = toUpper (trimRight s) := by
  have backwards : ∀ t : List Char, (toUpper t).reverse = t.reverse.flatMap (List.reverse ∘ upper) :=
    fun t => List.reverse_flatMap ..
  have dropped : (toUpper s).reverse.dropWhile isBlank =
      (s.reverse.dropWhile isBlank).flatMap (List.reverse ∘ upper) := by
    rw [backwards]
    apply dropWhile_flatMap
    · intro c blank
      simp [upper_of_blank blank]
    · intro c visible
      obtain ⟨nonempty, all⟩ := solid_upper visible
      refine ⟨(upper c).getLast nonempty, ?_, all _ (List.getLast_mem nonempty)⟩
      simp [List.getLast?_eq_some_getLast nonempty]
  have upright := backwards (s.reverse.dropWhile isBlank).reverse
  rw [List.reverse_reverse] at upright
  rw [trimRight, trimRight, dropped, ← upright, List.reverse_reverse]

theorem trim_toUpper (s : List Char) : trim (toUpper s) = toUpper (trim s) := by
  rw [trim, trim, trimLeft_toUpper, trimRight_toUpper]

end RouteTags.Text
