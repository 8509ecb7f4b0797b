import RouteTags.Proofs.Glob.Escapes
import RouteTags.Proofs.Selection.Patterns
import RouteTags.Proofs.Text.Trim
import Mathlib.Data.Bool.AllAny
import Mathlib.Data.List.TakeWhile

namespace RouteTags

namespace Side

def isMargin (c : Char) : Bool := Text.isBlank c || c == '.' || c == '/' || c == '\\'

def straighten (c : Char) : Char := if c = '\\' then '/' else c

theorem isMargin_of_straighten {c : Char} (h : straighten c = '.' ∨ straighten c = '/') :
    isMargin c = true := by
  by_cases backslash : c = '\\'
  · rw [backslash]
    decide
  · rw [straighten, if_neg backslash] at h
    rcases h with rfl | rfl <;> decide

theorem exists_trimSlashes (s : List Char) : ∃ before after,
    s = before ++ trimSlashes s ++ after ∧ ∀ c ∈ before ++ after, c = '/' := by
  have slashes : ∀ s : List Char, ∀ c ∈ s.takeWhile (· = '/'), c = '/' := by
    intro s c hc
    simpa using List.mem_takeWhile_imp hc
  let inner := s.dropWhile (· = '/')
  refine ⟨s.takeWhile (· = '/'), (inner.reverse.takeWhile (· = '/')).reverse, ?_, ?_⟩
  · rw [trimSlashes, List.append_assoc, ← List.reverse_append, List.takeWhile_append_dropWhile,
      List.reverse_reverse, List.takeWhile_append_dropWhile]
  · intro c hc
    rcases List.mem_append.mp hc with hc | hc
    · exact slashes s c hc
    · exact slashes inner.reverse c (List.mem_reverse.mp hc)

theorem exists_dropDots (s : List Char) :
    ∃ dots, s = dots ++ dropDots s ∧ ∀ c ∈ dots, c = '.' ∨ c = '/' := by
  fun_induction dropDots s with
  | case1 s ih =>
    obtain ⟨dots, whole, inside⟩ := ih
    refine ⟨'.' :: '/' :: dots, ?_, by simpa using inside⟩
    rw [List.cons_append, List.cons_append, ← whole]
  | case2 s => exact ⟨[], rfl, by simp⟩

theorem trimSlashes_of_folder? {entry folder : String} (effective : folder? entry = some folder)
    (content : folder ≠ "") :
    trimSlashes (dropDots ((Text.trim entry.toList).map straighten)) = folder.toList := by
  unfold folder? at effective
  split at effective
  · cases effective
  · simp only [Option.some.injEq] at effective
    split at effective
    · exact absurd effective.symm content
    · rw [← effective, String.toList_ofList]
      rfl

theorem exists_core {entry folder : String} (effective : folder? entry = some folder)
    (content : folder ≠ "") : ∃ before core after, entry.toList = before ++ core ++ after ∧
      core.map straighten = folder.toList ∧ ∀ c ∈ before ++ after, isMargin c = true := by
  obtain ⟨left, right, trimmed, blank⟩ := Text.exists_trim entry.toList
  obtain ⟨dots, undotted, dotted⟩ := exists_dropDots ((Text.trim entry.toList).map straighten)
  obtain ⟨front, back, bare, slashed⟩ :=
    exists_trimSlashes (dropDots ((Text.trim entry.toList).map straighten))
  rw [bare, trimSlashes_of_folder? effective content, List.append_assoc, ← List.append_assoc] at undotted
  obtain ⟨outer, behind, cut, margin, rest⟩ := List.map_eq_append_iff.mp undotted
  obtain ⟨core, tail, split, same, margin'⟩ := List.map_eq_append_iff.mp rest
  refine ⟨left ++ outer, core, tail ++ right, ?_, same, ?_⟩
  · rw [trimmed, cut, split]
    simp
  · intro c hc
    simp only [List.mem_append] at hc
    rcases hc with (hc | hc) | (hc | hc)
    · simp [isMargin, blank c (List.mem_append_left right hc)]
    · have inside : straighten c ∈ dots ++ front := margin ▸ List.mem_map_of_mem hc
      rcases List.mem_append.mp inside with h | h
      · exact isMargin_of_straighten (dotted _ h)
      · exact isMargin_of_straighten (.inr (slashed _ (List.mem_append_left back h)))
    · have inside : straighten c ∈ back := margin' ▸ List.mem_map_of_mem hc
      exact isMargin_of_straighten (.inr (slashed _ (List.mem_append_right front inside)))
    · simp [isMargin, blank c (List.mem_append_right left hc)]

theorem tame_of_folder? {entry folder : String} (effective : folder? entry = some folder)
    (content : folder ≠ "") (tame : Glob.Tame folder.toList) : Glob.Tame entry.toList := by
  obtain ⟨before, core, after, whole, same, margin⟩ := exists_core effective content
  have outside : ∀ c ∈ Glob.wildcards, isMargin c = false :=
    List.all_iff_forall_prop.mp (by decide)
  intro c hc wild
  simp only [whole, List.append_assoc, List.mem_append] at hc margin
  rcases hc with hc | hc | hc
  · exact absurd (margin c (.inl hc)) (by simp [outside c wild])
  · have straight : straighten c = c := by
      refine if_neg ?_
      rintro rfl
      exact absurd wild (by decide)
    exact tame c (same ▸ straight ▸ List.mem_map_of_mem hc) wild
  · exact absurd (margin c (.inr hc)) (by simp [outside c wild])

def isLetter (c : Char) : Bool := c != '/' && c != '\\'

theorem countP_trimSlashes (s : List Char) :
    (trimSlashes s).countP isLetter = s.countP isLetter := by
  obtain ⟨before, after, whole, slashes⟩ := exists_trimSlashes s
  have none : ∀ part : List Char, (∀ c ∈ part, c = '/') → part.countP isLetter = 0 := by
    intro part all
    rw [List.countP_eq_zero]
    intro c hc
    rw [all c hc]
    decide
  conv_rhs => rw [whole]
  rw [List.countP_append, List.countP_append,
    none before fun c hc => slashes c (List.mem_append_left after hc),
    none after fun c hc => slashes c (List.mem_append_right before hc), Nat.zero_add, Nat.add_zero]

/-- An entry has all the letters of its folder. -/
theorem countP_folder?_le {entry folder : String} (effective : folder? entry = some folder)
    (content : folder ≠ "") : folder.toList.countP isLetter ≤ entry.toList.countP isLetter := by
  obtain ⟨before, core, after, whole, same, -⟩ := exists_core effective content
  have kept : ∀ c, (isLetter ∘ straighten) c = isLetter c := by
    intro c
    by_cases backslash : c = '\\'
    · rw [backslash]
      decide
    · rw [Function.comp_apply, straighten, if_neg backslash]
  rw [← same, List.countP_map, funext kept, whole, List.append_assoc]
  exact ((List.sublist_append_left core after).trans (List.sublist_append_right before _)).countP_le

end Side

end RouteTags
