namespace RouteTags.Text

def blankRanges : List (Nat × Nat) :=
  [(0x09, 0x0D), (0x20, 0x20), (0x85, 0x85), (0xA0, 0xA0), (0x1680, 0x1680), (0x2000, 0x200A),
   (0x2028, 0x2029), (0x202F, 0x202F), (0x205F, 0x205F), (0x3000, 0x3000)]

def isBlank (c : Char) : Bool :=
  blankRanges.any fun r => r.1 ≤ c.toNat && c.toNat ≤ r.2

def trimLeft (s : List Char) : List Char := s.dropWhile isBlank

def trimRight (s : List Char) : List Char := (s.reverse.dropWhile isBlank).reverse

def trim (s : List Char) : List Char := trimRight (trimLeft s)

def trimmed (s : String) : String := String.ofList (trim s.toList)

theorem trimLeft_eq_nil_iff (s : List Char) : trimLeft s = [] ↔ ∀ c ∈ s, isBlank c = true := by
  induction s with
  | nil => simp [trimLeft]
  | cons c s ih =>
    by_cases h : isBlank c
    · rw [trimLeft, List.dropWhile_cons_of_pos h, List.forall_mem_cons]
      exact ih.trans (and_iff_right h).symm
    · simp [trimLeft, h]

theorem isBlank_of_trimLeft_cons {s r : List Char} {c : Char} (h : trimLeft s = c :: r) :
    isBlank c = false := by
  induction s with
  | nil => simp [trimLeft] at h
  | cons d s ih =>
    by_cases hd : isBlank d
    · exact ih (by simpa [trimLeft, hd] using h)
    · simp [trimLeft, hd] at h
      simpa [← h.1] using hd

end RouteTags.Text
