import RouteTags.Proofs.Path.Below

namespace RouteTags.Path

theorem pieces_behind_slash {front first : List Char} {more : List (List Char)}
    (cut : Text.splitAt '/' front = first :: more) (s : List Char) :
    (ofChars (front ++ '/' :: s)).pieces =
      leading first :: more.map inner ++ (Text.splitAt '/' s).map inner := by
  have whole : Text.splitAt '/' (front ++ '/' :: s) = first :: (more ++ Text.splitAt '/' s) := by
    rw [Text.splitAt_append_cons, cut, List.cons_append]
  rw [pieces_of_splitAt whole (.inr (by simp [Text.splitAt_ne_nil])), List.map_append]
  rfl

def laterComponents (s : List Char) : List Component :=
  ((Text.splitAt '/' s).map inner).filterMap (·.1)

theorem exists_components_front (front : List Char) :
    ∃ before, ∀ s, (ofChars (front ++ '/' :: s)).components = before ++ laterComponents s := by
  cases cut : Text.splitAt '/' front with
  | nil => exact absurd cut (Text.splitAt_ne_nil '/' front)
  | cons first more =>
    refine ⟨(leading first :: more.map inner).filterMap (·.1), ?_⟩
    intro s
    rw [components, pieces_behind_slash cut, List.filterMap_append, laterComponents]

section

variable {names : List String} (proper : ∀ name ∈ names, ProperName name) (content : names ≠ [])

include proper content

theorem head?_names : (String.intercalate "/" names).toList.head? ≠ some '/' := by
  cases names with
  | nil => exact absurd rfl content
  | cons name names =>
    have first := proper name List.mem_cons_self
    have front : (String.intercalate "/" (name :: names)).toList.head? = name.toList.head? := by
      cases names with
      | nil => simp
      | cons next names =>
        rw [Text.toList_intercalate_cons, List.head?_append_of_ne_nil _ first.nonempty]
    rw [front]
    intro slash
    exact first.slashless (List.mem_of_mem_head? slash)

theorem isAbsolute_ofNames : (ofNames names).isAbsolute = false := by
  simpa [isAbsolute, ofNames, -String.toList_intercalate] using head?_names proper content

theorem map_inner_names :
    (Text.splitAt '/' (String.intercalate "/" names).toList).map inner = names.map pieceOf := by
  rw [Text.splitAt_intercalate (fun name h => (proper name h).slashless) content, List.map_map]
  exact List.map_congr_left fun name h => inner_of_proper (proper name h)

theorem pieces_ofNames : (ofNames names).pieces = names.map pieceOf := by
  have slashless : ∀ name ∈ names, '/' ∉ name.toList := fun name h => (proper name h).slashless
  have cut := Text.splitAt_intercalate slashless content
  have text : ofNames names = ofChars (String.intercalate "/" names).toList := by
    rw [ofChars, String.ofList_toList, ofNames]
  have each := map_inner_names proper content
  cases names with
  | nil => exact absurd rfl content
  | cons name names =>
    have first := proper name List.mem_cons_self
    have front : leading name.toList = inner name.toList := by
      rw [leading, if_neg first.nonempty, if_neg first.notHere]
    rw [cut] at each
    rw [text, pieces_of_splitAt cut (.inl first.nonempty), front]
    exact each

theorem join_empty : (⟨""⟩ : Path).join (ofNames names) = ofNames names := by
  rw [join, isAbsolute_ofNames proper content]
  simp [ofNames]

theorem join_slash (front : List Char) : (ofChars (front ++ ['/'])).join (ofNames names) =
    ofChars (front ++ '/' :: (String.intercalate "/" names).toList) := by
  have text : (ofChars (front ++ ['/'])).text.toList = front ++ ['/'] := String.toList_ofList
  rw [join, isAbsolute_ofNames proper content, text]
  have ends : (front ++ ['/']).getLast? = some '/' := List.getLast?_concat
  simp only [ends, beq_self_eq_true, Bool.or_true, if_true, Bool.false_eq_true, if_false]
  apply congrArg Path.mk
  apply String.toList_injective
  rw [String.toList_append, text, String.toList_ofList, ofNames, List.append_assoc,
    List.singleton_append]

theorem join_solid {s : List Char} (nonempty : s ≠ []) (solid : s.getLast? ≠ some '/') :
    (ofChars s).join (ofNames names) =
      ofChars (s ++ '/' :: (String.intercalate "/" names).toList) := by
  have text : (ofChars s).text.toList = s := String.toList_ofList
  have filled : (ofChars s).text.isEmpty = false := by
    rw [← text] at nonempty
    simpa using nonempty
  rw [join, isAbsolute_ofNames proper content, text, filled]
  simp only [beq_eq_false_iff_ne.mpr solid, Bool.or_false, Bool.false_eq_true, if_false]
  apply congrArg Path.mk
  apply String.toList_injective
  rw [String.toList_ofList, String.toList_append, String.toList_append, text, ofNames,
    List.append_assoc]
  rfl

end

/-- What stays of the pieces of a path when names are put behind it. -/
theorem exists_stem (p : Path) : ∃ stem,
    (p.pieces = stem ∧ p.text.isEmpty = false ∨ p.pieces = stem ++ [(none, [])]) ∧
    ∀ names, (∀ name ∈ names, ProperName name) → names ≠ [] →
      (p.join (ofNames names)).pieces = stem ++ names.map pieceOf ∧
      (p.join (ofNames names)).isAbsolute = p.isAbsolute := by
  obtain ⟨s, rfl⟩ : ∃ s, p = ofChars s := ⟨p.text.toList, by rw [ofChars, String.ofList_toList]⟩
  have absolute : ∀ s, (ofChars s).isAbsolute = (s.head? == some '/') := by
    intro s
    rw [isAbsolute, ofChars, String.toList_ofList]
  by_cases empty : s = []
  · refine ⟨[], .inr (by rw [empty]; rfl), ?_⟩
    intro names proper content
    have alone : (ofChars s).join (ofNames names) = ofNames names := by
      rw [empty]
      exact join_empty proper content
    rw [alone, empty]
    exact ⟨pieces_ofNames proper content, isAbsolute_ofNames proper content⟩
  · by_cases slash : s.getLast? = some '/'
    · obtain ⟨front, rfl⟩ := List.getLast?_eq_some_iff.mp slash
      cases cut : Text.splitAt '/' front with
      | nil => exact absurd cut (Text.splitAt_ne_nil '/' front)
      | cons first more =>
        refine ⟨leading first :: more.map inner, .inr (pieces_behind_slash cut []), ?_⟩
        intro names proper content
        rw [join_slash proper content, pieces_behind_slash cut, map_inner_names proper content,
          absolute, absolute]
        refine ⟨rfl, ?_⟩
        cases front <;> rfl
    · cases cut : Text.splitAt '/' s with
      | nil => exact absurd cut (Text.splitAt_ne_nil '/' s)
      | cons first more =>
        have filled : first ≠ [] ∨ more ≠ [] := by
          by_contra none
          simp only [not_or, not_not] at none
          rw [none.1, none.2] at cut
          exact empty (Text.eq_of_splitAt_singleton cut)
        refine ⟨leading first :: more.map inner, .inl ⟨pieces_of_splitAt cut filled, ?_⟩, ?_⟩
        · simpa [ofChars] using empty
        · intro names proper content
          rw [join_solid proper content empty slash, pieces_behind_slash cut,
            map_inner_names proper content, absolute, absolute]
          exact ⟨rfl, by rw [List.head?_append_of_ne_nil _ empty]⟩

theorem components_join (p : Path) {names : List String} (proper : ∀ name ∈ names, ProperName name)
    (content : names ≠ []) :
    (p.join (ofNames names)).components = p.components ++ names.map .name := by
  obtain ⟨stem, ends, joined⟩ := exists_stem p
  have back : (names.map pieceOf).filterMap (·.1) = names.map .name := by
    rw [List.filterMap_map, ← List.filterMap_eq_map]
    rfl
  rw [components, (joined names proper content).1, List.filterMap_append, back, components]
  rcases ends with ⟨same, -⟩ | more
  · rw [same]
  · rw [more, List.filterMap_append]
    simp

end RouteTags.Path
