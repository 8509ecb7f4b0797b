import RouteTags.CrossReference
import Mathlib.Data.Finset.Card
import Mathlib.Data.List.Induction

namespace RouteTags.CrossReference

def repeated (declarations : List Declaration) : List Declaration :=
  (declarations.zipIdx.filter fun (d, i) =>
    d.key ∈ (declarations.take i).map Mention.key).map Prod.fst

theorem repeated_concat (declarations : List Declaration) (d : Declaration) :
    repeated (declarations ++ [d]) =
      repeated declarations ++ if d.key ∈ declarations.map Mention.key then [d] else [] := by
  have same : ∀ e ∈ declarations.zipIdx,
      decide (e.1.key ∈ ((declarations ++ [d]).take e.2).map Mention.key) =
        decide (e.1.key ∈ (declarations.take e.2).map Mention.key) := by
    intro e he
    have inside : e.2 < declarations.length := by
      have bound := List.snd_lt_add_of_mem_zipIdx he
      omega
    rw [List.take_append_of_le_length (Nat.le_of_lt inside)]
  rw [repeated, repeated, List.zipIdx_append, List.filter_append, List.filter_congr same,
    List.map_append]
  congr 1
  by_cases known : d.key ∈ declarations.map Mention.key
  · simp [known]
  · simp [known]

structure Holds (x : CrossReference) (declarations : List Declaration) : Prop where
  first : ∀ key, x.find? key = declarations.find? fun d => d.key == key
  late : x.duplicates = repeated declarations
  distinct : (x.routes.map Mention.key).Nodup
  total : x.routes.length + x.duplicates.length = declarations.length

theorem isSome_find?_iff {x : CrossReference} {key : RouteKey} :
    (x.find? key).isSome = true ↔ key ∈ x.routes.map Mention.key := by
  simp [find?, List.mem_map]

theorem isSome_find?_key_iff {declarations : List Declaration} {key : RouteKey} :
    (declarations.find? fun d => d.key == key).isSome = true ↔
      key ∈ declarations.map Mention.key := by
  simp [List.mem_map]

theorem insert_known {x : CrossReference} {d : Declaration}
    (known : (x.find? d.key).isSome = true) :
    x.insert d = { x with duplicates := x.duplicates ++ [d] } :=
  if_pos known

theorem insert_fresh {x : CrossReference} {d : Declaration}
    (fresh : ¬ (x.find? d.key).isSome = true) : x.insert d = { x with routes := x.routes ++ [d] } :=
  if_neg fresh

theorem Holds.insert {x : CrossReference} {declarations : List Declaration}
    (h : x.Holds declarations) (d : Declaration) : (x.insert d).Holds (declarations ++ [d]) := by
  have member : (x.find? d.key).isSome = true ↔ d.key ∈ declarations.map Mention.key := by
    rw [h.first, isSome_find?_key_iff]
  have total := h.total
  by_cases known : (x.find? d.key).isSome = true
  · rw [insert_known known]
    refine ⟨?_, ?_, h.distinct, ?_⟩
    · intro key
      have before := h.first key
      rw [List.find?_append, ← before]
      -- The new one could answer for its own key only, which is answered already.
      by_cases own : d.key = key
      · obtain ⟨e, found⟩ := Option.isSome_iff_exists.mp (own ▸ known)
        rw [found, Option.some_or]
        exact found
      · have silent : [d].find? (fun e => e.key == key) = none := by simp [own]
        rw [silent, Option.or_none]
        rfl
    · rw [repeated_concat, if_pos (member.mp known), ← h.late]
    · simp only [List.length_append, List.length_singleton]
      omega
  · rw [insert_fresh known]
    refine ⟨?_, ?_, ?_, ?_⟩
    · intro key
      rw [List.find?_append, ← h.first]
      exact List.find?_append
    · rw [repeated_concat, if_neg (fun old => known (member.mpr old)), List.append_nil]
      exact h.late
    · have apart : d.key ∉ x.routes.map Mention.key := fun old =>
        known (isSome_find?_iff.mpr old)
      rw [List.map_append, List.nodup_append]
      refine ⟨h.distinct, by simp, ?_⟩
      rintro _ old _ new rfl
      rw [List.map_singleton, List.mem_singleton] at new
      exact apart (new ▸ old)
    · simp only [List.length_append, List.length_singleton]
      omega

theorem holds_ofList (declarations : List Declaration) :
    (ofList declarations).Holds declarations := by
  induction declarations using List.reverseRecOn with
  | nil => exact ⟨fun _ => rfl, rfl, .nil, rfl⟩
  | append_singleton declarations d ih =>
    have step : ofList (declarations ++ [d]) = (ofList declarations).insert d := by
      rw [ofList, List.foldl_append]
      rfl
    rw [step]
    exact ih.insert d

theorem find?_ofList (declarations : List Declaration) (key : RouteKey) :
    (ofList declarations).find? key = declarations.find? fun d => d.key == key :=
  (holds_ofList declarations).first key

theorem find?_ofList_eq_none_iff {declarations : List Declaration} {key : RouteKey} :
    (ofList declarations).find? key = none ↔ key ∉ declarations.map Mention.key := by
  rw [find?_ofList, ← isSome_find?_key_iff, Bool.not_eq_true, Option.isSome_eq_false_iff,
    Option.isNone_iff_eq_none]

theorem mem_routes_keys_iff {declarations : List Declaration} {key : RouteKey} :
    key ∈ (ofList declarations).routes.map Mention.key ↔ key ∈ declarations.map Mention.key := by
  rw [← isSome_find?_iff, find?_ofList, isSome_find?_key_iff]

theorem size_ofList (declarations : List Declaration) :
    (ofList declarations).size = (declarations.map Mention.key).toFinset.card := by
  have keys : ((ofList declarations).routes.map Mention.key).toFinset =
      (declarations.map Mention.key).toFinset := by
    ext key
    rw [List.mem_toFinset, List.mem_toFinset, mem_routes_keys_iff]
  rw [← keys, List.toFinset_card_of_nodup (holds_ofList declarations).distinct, List.length_map]
  rfl

theorem size_add_duplicates (declarations : List Declaration) :
    (ofList declarations).size + (ofList declarations).duplicates.length = declarations.length :=
  (holds_ofList declarations).total

/-- A key leads to the first of its declarations, or nowhere if it has none. The others are kept
aside in their order, none of them lost. What is known of a list stays so when more declarations
follow, and they answer for what it does not know. -/
theorem ofList_partition (declarations : List Declaration) :
    (∀ key d, (ofList declarations).find? key = some d ↔
      ∃ before after, declarations = before ++ d :: after ∧ d.key = key ∧
        key ∉ before.map Mention.key) ∧
    (∀ key, (ofList declarations).find? key = none ↔ key ∉ declarations.map Mention.key) ∧
    (ofList declarations).duplicates = repeated declarations ∧
    (ofList declarations).size = (declarations.map Mention.key).toFinset.card ∧
    (ofList declarations).size + (ofList declarations).duplicates.length = declarations.length ∧
    (∀ more key, (ofList (declarations ++ more)).find? key =
      ((ofList declarations).find? key).or ((ofList more).find? key)) := by
  refine ⟨?_, fun _ => find?_ofList_eq_none_iff, (holds_ofList declarations).late,
    size_ofList declarations, size_add_duplicates declarations, ?_⟩
  · intro key d
    rw [find?_ofList, List.find?_eq_some_iff_append]
    constructor
    · rintro ⟨own, before, after, split, others⟩
      refine ⟨before, after, split, by simpa using own, ?_⟩
      intro earlier
      obtain ⟨e, he, same⟩ := List.mem_map.mp earlier
      have other := others e he
      simp [same] at other
    · rintro ⟨before, after, split, own, others⟩
      refine ⟨by simpa using own, before, after, split, ?_⟩
      intro e he
      have other : e.key ≠ key := fun same => others (same ▸ List.mem_map_of_mem he)
      simpa using other
  · intro more key
    rw [find?_ofList, find?_ofList, find?_ofList, List.find?_append]

end RouteTags.CrossReference
