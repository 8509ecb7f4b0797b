import RouteTags.Proofs.Tree.Labels
import Mathlib.Data.List.TakeWhile
import Mathlib.Logic.Relation

namespace RouteTags

structure TreePath (path : String) : Prop where
  rooted : ∃ rest, path.toList = '/' :: rest ∧ rest.head? ≠ some '/'
  plain : ∀ c ∈ path.toList, c ≠ '?' ∧ c ≠ '#'
  solid : ¬ Text.EndsBlank path.toList

theorem treePath_isTreePath (endpoint : String) : TreePath (treePath endpoint) := by
  refine ⟨⟨_, String.toList_ofList, ?_⟩, fun c => plain_of_mem_treePath, ?_⟩
  · intro slash
    have other := List.head?_dropWhile_not (fun c : Char => decide (c = '/'))
      (Text.trim (endpoint.toList.takeWhile fun c => c ≠ '?' ∧ c ≠ '#'))
    rw [slash] at other
    cases other
  · rw [treePath, String.toList_ofList]
    refine Text.not_endsBlank_cons (by decide) fun blank => ?_
    exact Text.not_endsBlank_trim _ (Text.endsBlank_of_suffix (List.dropWhile_suffix _) blank)

theorem TreePath.treePath_eq {path : String} (h : TreePath path) : treePath path = path := by
  obtain ⟨rest, starts, single⟩ := h.rooted
  have uncut : path.toList.takeWhile (fun c => c ≠ '?' ∧ c ≠ '#') = path.toList :=
    List.takeWhile_eq_self_iff.mpr fun c hc => by simpa using h.plain c hc
  have solid : ¬ Text.EndsBlank ('/' :: rest) := starts ▸ h.solid
  have kept : rest.dropWhile (fun c : Char => decide (c = '/')) = rest := by
    cases rest with
    | nil => rfl
    | cons c rest => exact List.dropWhile_cons_of_neg (by simpa using single)
  apply String.toList_injective
  rw [treePath, uncut, starts, Text.trim_eq_self (by decide) solid, String.toList_ofList,
    List.dropWhile_cons_of_pos (by simp), kept]

theorem treePath_append_cut (endpoint rest : String) {cut : String} (cuts : cut = "?" ∨ cut = "#") :
    treePath (endpoint ++ cut ++ rest) = treePath endpoint := by
  have stops : (cut.toList ++ rest.toList).takeWhile (fun c => c ≠ '?' ∧ c ≠ '#') = [] := by
    rcases cuts with rfl | rfl
    · exact List.takeWhile_cons_of_neg (by decide)
    · exact List.takeWhile_cons_of_neg (by decide)
  have same : (endpoint.toList ++ (cut.toList ++ rest.toList)).takeWhile
      (fun c => c ≠ '?' ∧ c ≠ '#') = endpoint.toList.takeWhile fun c => c ≠ '?' ∧ c ≠ '#' := by
    rw [List.takeWhile_append, stops, List.append_nil]
    split
    · rename_i all
      exact ((List.takeWhile_prefix _).eq_of_length all).symm
    · rfl
  rw [treePath, String.toList_append, String.toList_append, List.append_assoc, same, treePath]

/-- One more slash at an end of a text, or beside a slash in it. -/
inductive AddsSlash : String → String → Prop
  | before (s : String) : AddsSlash s ("/" ++ s)
  | after (s : String) : AddsSlash s (s ++ "/")
  | between (s t : String) : AddsSlash (s ++ "/" ++ t) (s ++ "/" ++ "/" ++ t)

theorem segmentsOf_append_slash (s t : String) :
    segmentsOf (s ++ "/" ++ t) = segmentsOf s ++ segmentsOf t := by
  have whole : (s ++ "/" ++ t).toList = s.toList ++ '/' :: t.toList := by simp
  rw [segmentsOf, whole, Text.splitAt_append_cons, List.filter_append, List.map_append]
  rfl

theorem segmentsOf_empty : segmentsOf "" = [] := by decide

theorem AddsSlash.segmentsOf_eq {s t : String} (added : AddsSlash s t) :
    segmentsOf t = segmentsOf s := by
  cases added with
  | before =>
    have front := segmentsOf_append_slash "" s
    rwa [String.empty_append, segmentsOf_empty, List.nil_append] at front
  | after =>
    have back := segmentsOf_append_slash s ""
    rwa [String.append_empty, segmentsOf_empty, List.append_nil] at back
  | between before after =>
    have pair := segmentsOf_append_slash before ""
    rw [String.append_empty, segmentsOf_empty, List.append_nil] at pair
    rw [segmentsOf_append_slash, segmentsOf_append_slash, pair]

theorem segmentsOf_of_addsSlash {s t : String} (added : Relation.ReflTransGen AddsSlash s t) :
    segmentsOf t = segmentsOf s := by
  induction added with
  | refl => rfl
  | tail _ last ih => rw [last.segmentsOf_eq, ih]

/-- The path of an endpoint is in normal form and is its own path, and queries and fragments do not
change it. Its labels are filled and hold no slash, and any such labels are read back from the path
that they spell, with as many slashes around them as one likes. -/
theorem treePath_canonical (endpoint query : String) :
    TreePath (treePath endpoint) ∧
    treePath (treePath endpoint) = treePath endpoint ∧
    treePath (endpoint ++ "?" ++ query) = treePath endpoint ∧
    treePath (endpoint ++ "#" ++ query) = treePath endpoint ∧
    (∀ label ∈ segmentsOf (treePath endpoint), label ≠ "" ∧ '/' ∉ label.toList) ∧
    ∀ labels : List String, (∀ label ∈ labels, label ≠ "" ∧ '/' ∉ label.toList) →
      segmentsOf (pathAlong labels) = labels ∧
      ∀ text, Relation.ReflTransGen AddsSlash (pathAlong labels) text →
        segmentsOf text = labels := by
  have normal := treePath_isTreePath endpoint
  refine ⟨normal, normal.treePath_eq, ?_, ?_, ?_, ?_⟩
  · exact treePath_append_cut endpoint query (.inl rfl)
  · exact treePath_append_cut endpoint query (.inr rfl)
  · intro label member
    have plain : PathLabel label := pathLabel_of_mem_labelsOf member
    exact ⟨by simpa using plain.nonempty, plain.slashless⟩
  · intro labels plain
    have read : segmentsOf (pathAlong labels) = labels := segmentsOf_pathAlong
      (fun label h => by simpa using (plain label h).1) fun label h => (plain label h).2
    exact ⟨read, fun text added => (segmentsOf_of_addsSlash added).trans read⟩

theorem treePath_canonical_users :
    treePath "/users/:id?page=2" = treePath "/users/:id" ∧
    Relation.ReflTransGen AddsSlash (pathAlong ["users", ":id"]) "//users//:id/" ∧
    segmentsOf "//users//:id/" = ["users", ":id"] := by
  obtain ⟨-, -, query, -, -, spelled⟩ := treePath_canonical "/users/:id" "page=2"
  have added : Relation.ReflTransGen AddsSlash (pathAlong ["users", ":id"]) "//users//:id/" :=
    ((Relation.ReflTransGen.single (.before "/users/:id")).tail (.between "//users" ":id")).tail
      (.after "//users//:id")
  exact ⟨query, added, (spelled ["users", ":id"] (by decide)).2 _ added⟩

end RouteTags
