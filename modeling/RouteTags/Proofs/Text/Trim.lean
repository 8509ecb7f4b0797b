import RouteTags.Text.Blank

namespace RouteTags.Text

def EndsBlank (s : List Char) : Prop := ∃ c ∈ s.getLast?, isBlank c = true

theorem solid_of_visible {c : Char} (low : 33 ≤ c.toNat) (high : c.toNat ≤ 126) :
    isBlank c = false := by
  simp only [isBlank, blankRanges, List.any_cons, List.any_nil, Bool.or_eq_false_iff,
    Bool.and_eq_false_iff, decide_eq_false_iff_not, and_true]
  omega

theorem trimRight_append_cons (s t : List Char) {c : Char} (solid : isBlank c = false) :
    trimRight (s ++ c :: t) = s ++ c :: trimRight t := by
  have backwards : (s ++ c :: t).reverse = t.reverse ++ c :: s.reverse := by simp
  rw [trimRight, backwards, List.dropWhile_append, List.dropWhile_cons_of_neg (by simp [solid])]
  split
  · rename_i blank
    have none : trimRight t = [] := by simpa [trimRight, List.isEmpty_iff] using blank
    simp [none]
  · simp [trimRight]

theorem trimLeft_append_cons (s t : List Char) {c : Char} (solid : isBlank c = false) :
    trimLeft (s ++ c :: t) = trimLeft s ++ c :: t := by
  induction s with
  | nil => exact List.dropWhile_cons_of_neg (by simp [solid])
  | cons d s ih =>
    by_cases blank : isBlank d
    · simpa [trimLeft, blank] using ih
    · simp [trimLeft, blank]

theorem exists_trimRight (s : List Char) :
    ∃ blanks, (∀ c ∈ blanks, isBlank c = true) ∧ s = trimRight s ++ blanks := by
  refine ⟨(s.reverse.takeWhile isBlank).reverse, ?_, ?_⟩
  · intro c hc
    exact List.all_eq_true.mp List.all_takeWhile c (List.mem_reverse.mp hc)
  · rw [trimRight, ← List.reverse_append, List.takeWhile_append_dropWhile, List.reverse_reverse]

theorem exists_trim (s : List Char) : ∃ before after,
    s = before ++ trim s ++ after ∧ ∀ c ∈ before ++ after, isBlank c = true := by
  obtain ⟨after, blank, whole⟩ := exists_trimRight (trimLeft s)
  refine ⟨s.takeWhile isBlank, after, ?_, ?_⟩
  · rw [trim, List.append_assoc, ← whole, trimLeft, List.takeWhile_append_dropWhile]
  · intro c hc
    rcases List.mem_append.mp hc with hc | hc
    · exact List.all_eq_true.mp List.all_takeWhile c hc
    · exact blank c hc

theorem trimRight_eq_self {s : List Char} (solid : ¬ EndsBlank s) : trimRight s = s := by
  cases h : s.getLast? with
  | none => rw [List.getLast?_eq_none_iff.mp h]; rfl
  | some c =>
    obtain ⟨front, rfl⟩ := List.getLast?_eq_some_iff.mp h
    have last : isBlank c = false := by simpa [EndsBlank] using solid
    exact trimRight_append_cons front [] last

theorem exists_trimRight_of_endsBlank {s : List Char} (blank : EndsBlank s) :
    ∃ blanks, blanks ≠ [] ∧ (∀ c ∈ blanks, isBlank c = true) ∧ s = trimRight s ++ blanks := by
  obtain ⟨c, last, hc⟩ := blank
  obtain ⟨front, rfl⟩ := List.getLast?_eq_some_iff.mp last
  have same : trimRight (front ++ [c]) = trimRight front := by simp [trimRight, hc]
  obtain ⟨blanks, all, split⟩ := exists_trimRight front
  refine ⟨blanks ++ [c], by simp, ?_, ?_⟩
  · intro d hd
    rcases List.mem_append.mp hd with hd | hd
    · exact all d hd
    · exact List.mem_singleton.mp hd ▸ hc
  · rw [same, ← List.append_assoc, ← split]

theorem endsBlank_append_cons (s t : List Char) (c : Char) :
    EndsBlank (s ++ c :: t) ↔ EndsBlank (c :: t) := by
  simp [EndsBlank, List.getLast?_append, List.getLast?_cons]

theorem trim_cons (s : List Char) {c : Char} (solid : isBlank c = false) :
    trim (c :: s) = trimRight (c :: s) := by
  rw [trim, trimLeft, List.dropWhile_cons_of_neg (by simp [solid])]

theorem endsBlank_of_suffix {s t : List Char} (suffix : t <:+ s) (blank : EndsBlank t) :
    EndsBlank s := by
  obtain ⟨front, rfl⟩ := suffix
  obtain ⟨c, last, hc⟩ := blank
  exact ⟨c, by rw [List.getLast?_append, last]; rfl, hc⟩

theorem not_endsBlank_cons {c : Char} {s : List Char} (visible : isBlank c = false)
    (solid : ¬ EndsBlank s) : ¬ EndsBlank (c :: s) := by
  cases s with
  | nil => simpa [EndsBlank] using visible
  | cons d s => exact fun blank => solid ((endsBlank_append_cons [c] s d).mp blank)

theorem not_endsBlank_trim (s : List Char) : ¬ EndsBlank (trim s) := by
  rintro ⟨c, last, blank⟩
  rw [trim, trimRight, List.getLast?_reverse] at last
  have kept := List.head?_dropWhile_not isBlank (trimLeft s).reverse
  rw [last] at kept
  exact absurd blank (by simpa using kept)

theorem trim_eq_self {c : Char} {s : List Char} (visible : isBlank c = false)
    (solid : ¬ EndsBlank (c :: s)) : trim (c :: s) = c :: s := by
  rw [trim_cons s visible, trimRight_eq_self solid]

theorem isBlank_of_trim_cons {s r : List Char} {c : Char} (h : trim s = c :: r) :
    isBlank c = false := by
  obtain ⟨blanks, _, split⟩ := exists_trimRight (trimLeft s)
  have whole : trimRight (trimLeft s) = c :: r := h
  rw [whole] at split
  exact isBlank_of_trimLeft_cons split

theorem trim_trim (s : List Char) : trim (trim s) = trim s := by
  cases h : trim s with
  | nil => rfl
  | cons c r => exact trim_eq_self (isBlank_of_trim_cons h) (h ▸ not_endsBlank_trim s)

theorem trim_append_blanks {before after : List Char} (left : ∀ c ∈ before, isBlank c = true)
    (right : ∀ c ∈ after, isBlank c = true) (s : List Char) :
    trim (before ++ s ++ after) = trim s := by
  have behind : ∀ t, trimRight (t ++ after) = trimRight t := by
    intro t
    rw [trimRight, List.reverse_append,
      List.dropWhile_append_of_pos fun c hc => right c (List.mem_reverse.mp hc), trimRight]
  rw [List.append_assoc, trim, trimLeft, List.dropWhile_append_of_pos left, List.dropWhile_append]
  split
  · rename_i blank
    have none : trimLeft s = [] := by simpa [trimLeft, List.isEmpty_iff] using blank
    have all := (trimLeft_eq_nil_iff after).mpr right
    rw [trimLeft] at all
    rw [all, trim, none]
  · rw [behind, trim, trimLeft]

theorem mem_of_mem_trim {s : List Char} {c : Char} (member : c ∈ trim s) : c ∈ s := by
  have right := List.mem_reverse.mp member
  have left := List.mem_reverse.mp ((List.dropWhile_sublist isBlank).subset right)
  exact (List.dropWhile_sublist isBlank).subset left

theorem infix_trim_iff {part : List Char} (nonempty : part ≠ [])
    (solid : ∀ c ∈ part, isBlank c = false) (s : List Char) : part <:+: trim s ↔ part <:+: s := by
  constructor
  · intro inside
    obtain ⟨blanks, -, split⟩ := exists_trimRight (trimLeft s)
    have front : trim s <+: trimLeft s := ⟨blanks, split.symm⟩
    exact inside.trans (front.isInfix.trans (List.dropWhile_suffix isBlank).isInfix)
  · rintro ⟨before, after, rfl⟩
    obtain ⟨first, rest, starts⟩ := List.exists_cons_of_ne_nil nonempty
    obtain ⟨front, last, ends⟩ := (List.eq_nil_or_concat part).resolve_left nonempty
    have left : trimLeft (before ++ part ++ after) = trimLeft before ++ part ++ after := by
      simp only [starts, List.append_assoc, List.cons_append]
      exact trimLeft_append_cons before _ (solid first (by simp [starts]))
    have right : trimRight (trimLeft before ++ part ++ after) =
        trimLeft before ++ part ++ trimRight after := by
      have behind := trimRight_append_cons (trimLeft before ++ front) after
        (solid last (by simp [ends]))
      simpa [ends] using behind
    rw [trim, left, right]
    exact List.infix_append _ _ _

end RouteTags.Text
