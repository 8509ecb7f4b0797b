import RouteTags.Proofs.Text.Search
import RouteTags.Proofs.Text.Trim
import RouteTags.Tree.Basic

namespace RouteTags

structure PathLabel (label : String) : Prop where
  nonempty : label.toList ≠ []
  plain : ∀ c ∈ label.toList, c ≠ '/' ∧ c ≠ '?' ∧ c ≠ '#'

theorem PathLabel.slashless {label : String} (h : PathLabel label) : '/' ∉ label.toList :=
  fun inside => (h.plain '/' inside).1 rfl

theorem PathLabel.ne_rootLabel {label : String} (h : PathLabel label) : label ≠ rootLabel := by
  rintro rfl
  exact h.slashless (by decide)

def pathAlong (labels : List String) : String := "/" ++ String.intercalate "/" labels

theorem pathAlong_singleton (label : String) : pathAlong [label] = "/" ++ label := by
  apply String.toList_injective
  simp [pathAlong]

theorem pathAlong_concat {labels : List String} (nonempty : labels ≠ []) (next : String) :
    pathAlong (labels ++ [next]) = pathAlong labels ++ "/" ++ next := by
  have joined : String.intercalate "/" (labels ++ [next]) =
      String.intercalate "/" labels ++ "/" ++ next := by
    induction labels with
    | nil => exact absurd rfl nonempty
    | cons label labels ih =>
      cases labels with
      | nil =>
        apply String.toList_injective
        simp
      | cons second labels =>
        have later := congrArg String.toList (ih (by simp))
        apply String.toList_injective
        simp only [List.cons_append, String.toList_append, String.toList_intercalate,
          List.map_cons, List.map_append, List.map_nil] at later ⊢
        simp only [List.intercalate_cons_cons, later, List.append_assoc]
  rw [pathAlong, pathAlong, joined]
  simp only [String.append_assoc]

theorem splitAt_pathAlong {labels : List String} (slashless : ∀ label ∈ labels, '/' ∉ label.toList)
    (nonempty : labels ≠ []) :
    Text.splitAt '/' (pathAlong labels).toList = [] :: labels.map String.toList := by
  have whole : (pathAlong labels).toList = [] ++ '/' :: (String.intercalate "/" labels).toList := by
    simp [pathAlong]
  rw [whole, Text.splitAt_append_cons, Text.splitAt_intercalate slashless nonempty]
  rfl

theorem segmentsOf_pathAlong {labels : List String} (filled : ∀ label ∈ labels, label.toList ≠ [])
    (slashless : ∀ label ∈ labels, '/' ∉ label.toList) : segmentsOf (pathAlong labels) = labels := by
  cases labels with
  | nil => decide
  | cons label labels =>
    have kept : ((label :: labels).map String.toList).filter (· ≠ []) =
        (label :: labels).map String.toList := by
      apply List.filter_eq_self.mpr
      intro piece member
      obtain ⟨name, hname, rfl⟩ := List.mem_map.mp member
      simpa using filled name hname
    rw [segmentsOf, splitAt_pathAlong slashless (by simp), List.filter_cons_of_neg (by simp), kept,
      List.map_map]
    simp

theorem plain_of_mem_treePath {endpoint : String} {c : Char} (h : c ∈ (treePath endpoint).toList) :
    c ≠ '?' ∧ c ≠ '#' := by
  rw [treePath, String.toList_ofList] at h
  rcases List.mem_cons.mp h with rfl | h
  · decide
  · have kept := Text.mem_of_mem_trim ((List.dropWhile_suffix (· = '/')).subset h)
    simpa using List.all_eq_true.mp List.all_takeWhile c kept

theorem pathLabel_of_mem_labelsOf {endpoint label : String} (h : label ∈ labelsOf endpoint) :
    PathLabel label := by
  obtain ⟨piece, member, rfl⟩ := List.mem_map.mp h
  obtain ⟨cut, filled⟩ := List.mem_filter.mp member
  constructor
  · simpa using filled
  · intro c hc
    rw [String.toList_ofList] at hc
    refine ⟨?_, plain_of_mem_treePath (Text.mem_of_mem_splitAt cut hc)⟩
    rintro rfl
    exact Text.not_mem_of_mem_splitAt cut hc

end RouteTags
