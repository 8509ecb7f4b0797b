import RouteTags.Text.Search

namespace RouteTags.Text

theorem occursIn_iff_infix {part s : List Char} : occursIn part s = true ↔ part <:+: s := by
  rw [occursIn_iff]
  exact exists_congr fun before => exists_congr fun after => eq_comm

theorem splitAt_append_cons (sep : Char) (s t : List Char) :
    splitAt sep (s ++ sep :: t) = splitAt sep s ++ splitAt sep t := by
  induction s with
  | nil =>
    cases h : splitAt sep t with
    | nil => exact absurd h (splitAt_ne_nil sep t)
    | cons piece pieces => simp [splitAt, h]
  | cons c s ih =>
    rw [List.cons_append, splitAt, splitAt, ih]
    cases h : splitAt sep s with
    | nil => exact absurd h (splitAt_ne_nil sep s)
    | cons piece pieces => by_cases same : c = sep <;> simp [same]

theorem splitAt_of_not_mem {sep : Char} {s : List Char} (absent : sep ∉ s) :
    splitAt sep s = [s] := by
  induction s with
  | nil => rfl
  | cons c s ih =>
    have first : c ≠ sep := fun same => absent (same ▸ List.mem_cons_self)
    simp [splitAt, ih (fun h => absent (List.mem_cons_of_mem c h)), first]

theorem eq_of_splitAt_singleton {sep : Char} {s piece : List Char} (cut : splitAt sep s = [piece]) :
    s = piece := by
  rw [← joinWith_splitAt sep s, cut]
  rfl

theorem mem_of_mem_splitAt {sep c : Char} {s piece : List Char} (h : piece ∈ splitAt sep s)
    (hc : c ∈ piece) : c ∈ s := by
  induction s generalizing piece with
  | nil => simp_all [splitAt]
  | cons d s ih =>
    simp only [splitAt] at h
    split at h
    · rename_i none
      exact absurd none (splitAt_ne_nil sep s)
    · rename_i first pieces cut
      rw [cut] at ih
      split at h
      · rcases List.mem_cons.mp h with rfl | h
        · cases hc
        · exact List.mem_cons_of_mem d (ih h hc)
      · rcases List.mem_cons.mp h with rfl | h
        · rcases List.mem_cons.mp hc with rfl | hc
          · exact List.mem_cons_self
          · exact List.mem_cons_of_mem d (ih List.mem_cons_self hc)
        · exact List.mem_cons_of_mem d (ih (List.mem_cons_of_mem first h) hc)

theorem toList_intercalate_cons (name next : String) (names : List String) :
    (String.intercalate "/" (name :: next :: names)).toList =
      name.toList ++ '/' :: (String.intercalate "/" (next :: names)).toList := by
  simp

theorem toList_intercalate_append {front back : List String} (some : front ≠ [])
    (more : back ≠ []) : (String.intercalate "/" (front ++ back)).toList =
      (String.intercalate "/" front).toList ++ '/' :: (String.intercalate "/" back).toList := by
  induction front with
  | nil => exact absurd rfl some
  | cons name front ih =>
    obtain ⟨first, rest, rfl⟩ := List.exists_cons_of_ne_nil more
    cases front with
    | nil => simp
    | cons next front =>
      have later := ih (List.cons_ne_nil next front)
      rw [List.cons_append] at later
      rw [List.cons_append, List.cons_append, toList_intercalate_cons, later,
        toList_intercalate_cons, List.append_assoc, List.cons_append]

theorem exists_intercalate_concat (front : List String) (last : String) :
    ∃ before, (String.intercalate "/" (front ++ [last])).toList = before ++ last.toList := by
  by_cases none : front = []
  · exact ⟨[], by simp [none]⟩
  · refine ⟨(String.intercalate "/" front).toList ++ ['/'], ?_⟩
    rw [toList_intercalate_append none (List.cons_ne_nil last [])]
    simp

theorem splitAt_intercalate {names : List String} (slashless : ∀ name ∈ names, '/' ∉ name.toList)
    (nonempty : names ≠ []) :
    splitAt '/' (String.intercalate "/" names).toList = names.map String.toList := by
  induction names with
  | nil => exact absurd rfl nonempty
  | cons name names ih =>
    have alone := splitAt_of_not_mem (slashless name List.mem_cons_self)
    cases names with
    | nil => simpa using alone
    | cons next names =>
      have later := ih (fun name h => slashless name (List.mem_cons_of_mem _ h)) (by simp)
      rw [toList_intercalate_cons, splitAt_append_cons, alone, later]
      rfl

theorem mem_intercalate {names : List String} {c : Char}
    (member : c ∈ (String.intercalate "/" names).toList) :
    c = '/' ∨ ∃ name ∈ names, c ∈ name.toList := by
  induction names with
  | nil => cases member
  | cons name names ih =>
    cases names with
    | nil => exact .inr ⟨name, List.mem_cons_self, by simpa using member⟩
    | cons next names =>
      rw [toList_intercalate_cons, List.mem_append, List.mem_cons] at member
      rcases member with here | slash | later
      · exact .inr ⟨name, List.mem_cons_self, here⟩
      · exact .inl slash
      · exact (ih later).imp_right fun ⟨other, listed, inside⟩ =>
          ⟨other, List.mem_cons_of_mem name listed, inside⟩

theorem not_mem_or_last (sep : Char) (s : List Char) :
    sep ∉ s ∨ ∃ front last, s = front ++ sep :: last ∧ sep ∉ last := by
  induction s with
  | nil => exact .inl (List.not_mem_nil)
  | cons c s ih =>
    rcases ih with absent | ⟨front, last, rfl, absent⟩
    · by_cases same : c = sep
      · exact .inr ⟨[], s, by rw [same]; rfl, absent⟩
      · exact .inl (by simp [absent, Ne.symm same])
    · exact .inr ⟨c :: front, last, rfl, absent⟩

theorem joinWith_append {sep : Char} {ps qs : List (List Char)} (left : ps ≠ []) (right : qs ≠ []) :
    joinWith sep (ps ++ qs) = joinWith sep ps ++ sep :: joinWith sep qs := by
  induction ps with
  | nil => exact absurd rfl left
  | cons p ps ih =>
    cases ps with
    | nil =>
      obtain ⟨q, qs, rfl⟩ := List.exists_cons_of_ne_nil right
      rfl
    | cons next ps =>
      have later := ih (by simp)
      simp only [List.cons_append, joinWith, List.append_assoc] at later ⊢
      rw [later]

theorem append_sep_prefix_iff {sep : Char} {s t : List Char} :
    s ++ [sep] <+: t ↔ splitAt sep s <+: splitAt sep t ∧ splitAt sep s ≠ splitAt sep t := by
  constructor
  · rintro ⟨rest, rfl⟩
    have cut := splitAt_append_cons sep s rest
    rw [List.append_assoc, List.singleton_append, cut]
    exact ⟨List.prefix_append _ _, by simpa using (splitAt_ne_nil sep rest).symm⟩
  · rintro ⟨⟨more, whole⟩, differ⟩
    have content : more ≠ [] := by
      rintro rfl
      exact differ (by simpa using whole)
    refine ⟨joinWith sep more, ?_⟩
    rw [← joinWith_splitAt sep t, ← whole, joinWith_append (splitAt_ne_nil sep s) content,
      joinWith_splitAt, List.append_assoc]
    rfl

theorem suffix_append_sep {sep : Char} {s : List Char} (absent : sep ∉ s) (front last : List Char) :
    s <:+ front ++ sep :: last ↔ s <:+ last := by
  constructor
  · intro suffix
    have behind : sep :: last <:+ front ++ sep :: last := List.suffix_append front _
    rcases List.suffix_or_suffix_of_suffix suffix behind with inside | around
    · rcases List.suffix_cons_iff.mp inside with rfl | inside
      · exact absurd List.mem_cons_self absent
      · exact inside
    · exact absurd (around.subset List.mem_cons_self) absent
  · intro suffix
    exact suffix.trans ((List.suffix_cons sep last).trans (List.suffix_append front _))

theorem suffix_iff_last {sep : Char} {s : List Char} (absent : sep ∉ s) (t : List Char) :
    s <:+ t ↔ ∃ last, (splitAt sep t).getLast? = some last ∧ s <:+ last := by
  rcases not_mem_or_last sep t with alone | ⟨front, last, rfl, alone⟩
  · simp [splitAt_of_not_mem alone]
  · simp [splitAt_append_cons, splitAt_of_not_mem alone, suffix_append_sep absent]

theorem splitAt_joinWith {sep : Char} {pieces : List (List Char)}
    (absent : ∀ piece ∈ pieces, sep ∉ piece) (nonempty : pieces ≠ []) :
    splitAt sep (joinWith sep pieces) = pieces := by
  induction pieces with
  | nil => exact absurd rfl nonempty
  | cons piece pieces ih =>
    have alone := splitAt_of_not_mem (absent piece List.mem_cons_self)
    cases pieces with
    | nil => exact alone
    | cons next pieces =>
      have later := ih (fun other h => absent other (List.mem_cons_of_mem piece h)) (by simp)
      rw [joinWith, splitAt_append_cons, alone, later]
      rfl

theorem getLast?_splitAt_iff {sep : Char} {s t : List Char} (absent : sep ∉ s) :
    (splitAt sep t).getLast? = some s ↔ t = s ∨ sep :: s <:+ t := by
  rcases not_mem_or_last sep t with alone | ⟨front, last, rfl, alone⟩
  · have longer : ¬ sep :: s <:+ t := fun suffix => alone (suffix.subset List.mem_cons_self)
    simp [splitAt_of_not_mem alone, longer]
  · have whole : front ++ sep :: last ≠ s := by
      rintro rfl
      exact absent (List.mem_append_right front List.mem_cons_self)
    simp only [splitAt_append_cons, splitAt_of_not_mem alone, List.getLast?_concat,
      Option.some.injEq, whole, false_or]
    constructor
    · rintro rfl
      exact List.suffix_append front _
    · intro suffix
      have inside : s <:+ last :=
        (suffix_append_sep absent front last).mp ((List.suffix_cons sep s).trans suffix)
      rcases List.suffix_or_suffix_of_suffix suffix (List.suffix_append front (sep :: last))
        with shorter | longer
      · rcases List.suffix_cons_iff.mp shorter with same | within
        · exact (List.cons.inj same).2.symm
        · exact absurd (within.subset List.mem_cons_self) alone
      · rcases List.suffix_cons_iff.mp longer with same | within
        · exact (List.cons.inj same).2
        · exact absurd (within.subset List.mem_cons_self) absent

theorem mem_dropLast_splitAt_iff {sep : Char} {s t : List Char} (absent : sep ∉ s) :
    s ∈ (splitAt sep t).dropLast ↔
      s ++ [sep] <+: t ∨ ∃ front, front ++ sep :: (s ++ [sep]) <+: t := by
  constructor
  · intro member
    obtain ⟨pieces, last, cut⟩ : ∃ pieces last, splitAt sep t = pieces ++ [last] :=
      ⟨_, _, (List.dropLast_concat_getLast (splitAt_ne_nil sep t)).symm⟩
    rw [cut, List.dropLast_concat] at member
    obtain ⟨before, after, rfl⟩ := List.append_of_mem member
    have behind : joinWith sep (s :: (after ++ [last])) = s ++ sep :: joinWith sep (after ++ [last]) :=
      joinWith_append (List.cons_ne_nil s []) (by simp)
    rw [List.append_assoc, List.cons_append] at cut
    rw [← joinWith_splitAt sep t, cut]
    by_cases first : before = []
    · rw [first, List.nil_append, behind]
      exact .inl ⟨joinWith sep (after ++ [last]), by simp⟩
    · rw [joinWith_append first (List.cons_ne_nil _ _), behind]
      exact .inr ⟨joinWith sep before, joinWith sep (after ++ [last]), by simp⟩
  · have inside : ∀ back, splitAt sep (s ++ sep :: back) = s :: splitAt sep back := by
      intro back
      rw [splitAt_append_cons, splitAt_of_not_mem absent]
      rfl
    rintro (⟨back, rfl⟩ | ⟨front, back, rfl⟩)
    · rw [List.append_assoc, List.singleton_append, inside, List.dropLast_cons_of_ne_nil
        (splitAt_ne_nil sep back)]
      exact List.mem_cons_self
    · have whole : front ++ sep :: (s ++ [sep]) ++ back = front ++ sep :: (s ++ sep :: back) := by
        simp
      rw [whole, splitAt_append_cons, inside, List.dropLast_append_of_ne_nil (List.cons_ne_nil _ _),
        List.dropLast_cons_of_ne_nil (splitAt_ne_nil sep back)]
      exact List.mem_append_right _ List.mem_cons_self

end RouteTags.Text
