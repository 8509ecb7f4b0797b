import RouteTags.Path
import RouteTags.Proofs.Text.Search
import RouteTags.Text.Blank

namespace RouteTags

namespace Path

theorem same_iff {p q : Path} : p.same q = true ↔ p.components = q.components := beq_iff_eq

def ofChars (s : List Char) : Path := ⟨String.ofList s⟩

def leading (piece : List Char) : Piece :=
  if piece = [] then (some .root, []) else if piece = ['.'] then (some .here, piece) else inner piece

theorem pieces_of_splitAt {s first : List Char} {rest : List (List Char)}
    (cut : Text.splitAt '/' s = first :: rest) (content : first ≠ [] ∨ rest ≠ []) :
    (ofChars s).pieces = leading first :: rest.map inner := by
  simp only [pieces, ofChars, String.toList_ofList, cut]
  by_cases empty : first = []
  · subst empty
    cases rest with
    | nil => simp at content
    | cons second rest => rfl
  · by_cases dot : first = ['.']
    · subst dot
      rfl
    · simp [leading, empty, dot]

theorem pieces_append_slash (front : List Char) :
    ∃ before, ∀ last, '/' ∉ last →
      (ofChars (front ++ '/' :: last)).pieces = before ++ [inner last] := by
  cases h : Text.splitAt '/' front with
  | nil => exact absurd h (Text.splitAt_ne_nil '/' front)
  | cons first more =>
    refine ⟨leading first :: more.map inner, ?_⟩
    intro last absent
    have cut : Text.splitAt '/' (front ++ '/' :: last) = first :: (more ++ [last]) := by
      rw [Text.splitAt_append_cons, h, Text.splitAt_of_not_mem absent, List.cons_append]
    simpa using pieces_of_splitAt cut (.inr (by simp))

@[simp] theorem inner_snd (piece : List Char) : (inner piece).2 = piece := by
  unfold inner
  split
  · rfl
  · split <;> rfl

theorem inner_ne_root (piece : List Char) : (inner piece).1 ≠ some .root := by
  unfold inner
  split
  · simp
  · split <;> simp

theorem leading_eq_root_iff {piece : List Char} : (leading piece).1 = some .root ↔ piece = [] := by
  unfold leading
  split
  · rename_i empty
    simp [empty]
  · rename_i nonempty
    split
    · simp [nonempty]
    · simp [nonempty, inner_ne_root]

theorem root_mem_components_iff (s : List Char) :
    Component.root ∈ (ofChars s).components ↔ s.head? = some '/' := by
  have rooted : ∀ (first : List Char) (rest : List (List Char)), Component.root ∈
      (leading first :: rest.map inner).filterMap (·.1) ↔ first = [] := by
    intro first rest
    have inside : ¬ ∃ piece ∈ rest.map inner, piece.1 = some .root := by
      rintro ⟨_, member, root⟩
      obtain ⟨piece, _, rfl⟩ := List.mem_map.mp member
      exact inner_ne_root piece root
    simp only [List.mem_filterMap, List.mem_cons, exists_eq_or_imp, leading_eq_root_iff]
    exact or_iff_left inside
  cases s with
  | nil => simp [components, pieces, ofChars, Text.splitAt]
  | cons c s =>
    cases h : Text.splitAt '/' s with
    | nil => exact absurd h (Text.splitAt_ne_nil '/' s)
    | cons piece more =>
      by_cases slash : c = '/'
      · have cut : Text.splitAt '/' (c :: s) = [] :: piece :: more := by
          simp [Text.splitAt, h, slash]
        rw [components, pieces_of_splitAt cut (.inr (by simp)), rooted]
        simp [slash]
      · have cut : Text.splitAt '/' (c :: s) = (c :: piece) :: more := by
          simp [Text.splitAt, h, slash]
        rw [components, pieces_of_splitAt cut (.inl (by simp)), rooted]
        simp [slash]

theorem append_blanks_ne_dots (piece dots : List Char) {blanks : List Char} (nonempty : blanks ≠ [])
    (blank : ∀ c ∈ blanks, Text.isBlank c = true) (dotted : ∀ c ∈ dots, c = '.') :
    piece ++ blanks ≠ dots := by
  rintro rfl
  obtain ⟨c, hc⟩ := List.exists_mem_of_ne_nil blanks nonempty
  have dot : c = '.' := dotted c (List.mem_append_right _ hc)
  have h := blank c hc
  rw [dot] at h
  exact absurd h (by decide)

theorem inner_append_blanks (piece : List Char) {blanks : List Char} (nonempty : blanks ≠ [])
    (blank : ∀ c ∈ blanks, Text.isBlank c = true) :
    (inner (piece ++ blanks)).1 = some (.name (String.ofList (piece ++ blanks))) := by
  have solid := fun dots => append_blanks_ne_dots piece dots nonempty blank
  simp [inner, solid [] (by simp), solid ['.'] (by simp), solid ['.', '.'] (by simp)]

theorem leading_append_blanks (piece : List Char) {blanks : List Char} (nonempty : blanks ≠ [])
    (blank : ∀ c ∈ blanks, Text.isBlank c = true) :
    (leading (piece ++ blanks)).1 = some (.name (String.ofList (piece ++ blanks))) := by
  have solid := fun dots => append_blanks_ne_dots piece dots nonempty blank
  rw [leading, if_neg (solid [] (by simp)), if_neg (solid ['.'] (by simp)),
    inner_append_blanks piece nonempty blank]

theorem eq_of_inner_eq_name {piece : List Char} {name : String}
    (h : (inner piece).1 = some (.name name)) : name = String.ofList piece := by
  unfold inner at h
  split at h
  · cases h
  · split at h
    · cases h
    · simpa using h.symm

theorem eq_of_leading_eq_name {piece : List Char} {name : String}
    (h : (leading piece).1 = some (.name name)) : name = String.ofList piece := by
  unfold leading at h
  split at h
  · cases h
  · split at h
    · cases h
    · exact eq_of_inner_eq_name h

theorem name_ne_component {piece : Piece} {name : String}
    (other : piece.1 ≠ some (.name name)) : [Component.name name] ≠ [piece].filterMap (·.1) := by
  obtain ⟨component, _⟩ := piece
  cases component with
  | none => simp
  | some component => simpa [eq_comm] using other

theorem components_append_blanks (s : List Char) {blanks : List Char} (nonempty : blanks ≠ [])
    (blank : ∀ c ∈ blanks, Text.isBlank c = true) :
    (ofChars (s ++ blanks)).components ≠ (ofChars s).components := by
  have slashless : '/' ∉ blanks := fun h => absurd (blank '/' h) (by decide)
  have longer : ∀ piece, String.ofList (piece ++ blanks) ≠ String.ofList piece := by
    intro piece same
    exact nonempty (by simpa using String.ofList_injective same)
  rcases Text.not_mem_or_last '/' s with absent | ⟨front, last, rfl, absent⟩
  · have cut : Text.splitAt '/' (s ++ blanks) = [s ++ blanks] :=
      Text.splitAt_of_not_mem (by simp [absent, slashless])
    simp only [components, pieces_of_splitAt cut (.inl (by simp [nonempty])), List.map_nil,
      List.filterMap_cons, leading_append_blanks s nonempty blank, List.filterMap_nil]
    by_cases empty : s = []
    · simp [empty, pieces, ofChars, Text.splitAt]
    · rw [pieces_of_splitAt (Text.splitAt_of_not_mem absent) (.inl empty)]
      exact name_ne_component fun h => longer s (eq_of_leading_eq_name h)
  · obtain ⟨before, cut⟩ := pieces_append_slash front
    have whole : front ++ '/' :: last ++ blanks = front ++ '/' :: (last ++ blanks) := by simp
    rw [components, components, whole, cut (last ++ blanks) (by simp [absent, slashless]),
      cut last absent, List.filterMap_append, List.filterMap_append]
    intro same
    have tails := List.append_cancel_left same
    simp only [List.filterMap_cons, inner_append_blanks last nonempty blank, List.filterMap_nil]
      at tails
    exact name_ne_component (fun h => longer last (eq_of_inner_eq_name h)) tails

end Path

end RouteTags
