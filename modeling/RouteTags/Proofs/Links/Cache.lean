import RouteTags.Links
import RouteTags.Proofs.Path.Components
import Mathlib.Data.List.Induction
import Mathlib.Data.Set.Card

/-! The link cache over whole runs. What it knows of a document is what the last action that
concerned the document made of it, under whatever spelling of its path, and it has one entry for
each document that it knows. -/
namespace RouteTags.LinkCache

inductive Action where
  | refresh (document : Path) (text : String) (index : CrossReference) (scheme : Scheme)
  | reset (document : Path)
  | clear

def Action.Concerns (document : Path) : Action → Prop
  | .refresh other _ _ _ => other.same document = true
  | .reset other => other.same document = true
  | .clear => True

def act (c : LinkCache) : Action → LinkCache
  | .refresh document text index scheme => c.refresh document (linksOf text index scheme)
  | .reset document => c.reset document
  | .clear => c.clear

def run (history : List Action) : LinkCache := history.foldl act empty

def LastRefreshed (history : List Action) (document : Path) (text : String)
    (index : CrossReference) (scheme : Scheme) : Prop :=
  ∃ before spelling after, history = before ++ .refresh spelling text index scheme :: after ∧
    spelling.same document = true ∧ ∀ action ∈ after, ¬ action.Concerns document

section

variable (c : LinkCache) (document other : Path) (links : List Link)

theorem get?_reset : (c.reset document).get? other =
    if document.same other then none else c.get? other := by
  simp only [get?, reset]
  induction c.documents with
  | nil => simp
  | cons entry entries ih =>
    obtain ⟨components, known⟩ := entry
    by_cases dropped : components = document.components
    · rw [List.filter_cons_of_neg (by simpa using dropped), ih]
      by_cases same : document.same other
      · rw [if_pos same, if_pos same]
      · have apart : other.components ≠ components :=
          fun h => same (Path.same_iff.mpr (dropped.symm.trans h.symm))
        rw [if_neg same, if_neg same, List.lookup_cons, beq_eq_false_iff_ne.mpr apart]
    · rw [List.filter_cons_of_pos (by simpa using dropped), List.lookup_cons, List.lookup_cons, ih]
      by_cases here : other.components = components
      · have kept : ¬ document.same other = true :=
          fun h => dropped ((Path.same_iff.mp h).trans here).symm
        simp only [beq_iff_eq.mpr here, if_neg kept]
      · rw [beq_eq_false_iff_ne.mpr here]

theorem get?_refresh : (c.refresh document links).get? other =
    if document.same other then some links else c.get? other := by
  have first : (c.refresh document links).get? other =
      if other.components = document.components then some links
      else (c.reset document).get? other := by
    simp only [get?, refresh, List.lookup_cons]
    by_cases here : other.components = document.components
    · rw [beq_iff_eq.mpr here, if_pos here]
    · rw [beq_eq_false_iff_ne.mpr here, if_neg here]
  rw [first, get?_reset]
  by_cases same : document.same other
  · rw [if_pos (Path.same_iff.mp same).symm, if_pos same]
  · rw [if_neg fun h => same (Path.same_iff.mpr h.symm), if_neg same, if_neg same]

end

theorem get?_act {document : Path} {action : Action} (aside : ¬ action.Concerns document)
    (c : LinkCache) : (c.act action).get? document = c.get? document := by
  cases action with
  | refresh other text index scheme => exact (get?_refresh c other document _).trans (if_neg aside)
  | reset other => exact (get?_reset c other document).trans (if_neg aside)
  | clear => exact absurd trivial aside

theorem run_concat (history : List Action) (action : Action) :
    run (history ++ [action]) = (run history).act action := by
  rw [run, List.foldl_append]
  rfl

section

variable {history : List Action} {document : Path} {text : String} {index : CrossReference}
  {scheme : Scheme} {action : Action}

theorem lastRefreshed_concat_of_aside (aside : ¬ action.Concerns document) :
    LastRefreshed (history ++ [action]) document text index scheme ↔
      LastRefreshed history document text index scheme := by
  constructor
  · rintro ⟨before, spelling, after, split, same, quiet⟩
    rcases List.eq_nil_or_concat' after with rfl | ⟨after, last, rfl⟩
    · obtain ⟨-, only⟩ := List.append_inj' split rfl
      rw [(List.cons.inj only).1] at aside
      exact absurd same aside
    · rw [← List.cons_append, ← List.append_assoc] at split
      obtain ⟨whole, -⟩ := List.append_inj' split rfl
      exact ⟨before, spelling, after, whole, same, fun a h => quiet a (List.mem_append_left _ h)⟩
  · rintro ⟨before, spelling, after, rfl, same, quiet⟩
    refine ⟨before, spelling, after ++ [action], by simp, same, fun a h => ?_⟩
    rcases List.mem_append.mp h with h | h
    · exact quiet a h
    · rwa [List.mem_singleton.mp h]

theorem lastRefreshed_concat_of_concerns (concerns : action.Concerns document) :
    LastRefreshed (history ++ [action]) document text index scheme ↔
      ∃ spelling, action = .refresh spelling text index scheme := by
  constructor
  · rintro ⟨before, spelling, after, split, same, quiet⟩
    rcases List.eq_nil_or_concat' after with rfl | ⟨after, last, rfl⟩
    · obtain ⟨-, only⟩ := List.append_inj' split rfl
      exact ⟨spelling, (List.cons.inj only).1⟩
    · rw [← List.cons_append, ← List.append_assoc] at split
      obtain ⟨-, only⟩ := List.append_inj' split rfl
      rw [(List.cons.inj only).1] at concerns
      exact absurd concerns (quiet last (by simp))
  · rintro ⟨spelling, rfl⟩
    exact ⟨history, spelling, [], rfl, concerns, fun a h => absurd h List.not_mem_nil⟩

end

theorem get?_run_iff (history : List Action) (document : Path) (links : List Link) :
    (run history).get? document = some links ↔ ∃ text index scheme,
      LastRefreshed history document text index scheme ∧ links = linksOf text index scheme := by
  induction history using List.reverseRecOn generalizing links with
  | nil =>
    simp [run, empty, get?, LastRefreshed]
  | append_singleton history action ih =>
    rw [run_concat]
    by_cases concerns : action.Concerns document
    · simp only [lastRefreshed_concat_of_concerns concerns]
      cases action with
      | refresh spelling text index scheme =>
        have now := (get?_refresh (run history) spelling document (linksOf text index scheme)).trans
          (if_pos concerns)
        rw [act, now, Option.some.injEq]
        constructor
        · rintro rfl
          exact ⟨text, index, scheme, ⟨spelling, rfl⟩, rfl⟩
        · rintro ⟨_, _, _, ⟨_, same⟩, rfl⟩
          cases same
          rfl
      | reset spelling =>
        have now := (get?_reset (run history) spelling document).trans (if_pos concerns)
        simp [act, now]
      | clear => simp [act, clear, empty, get?]
    · simp only [get?_act concerns, ih, lastRefreshed_concat_of_aside concerns]

structure Tidy (c : LinkCache) : Prop where
  nodup : (c.documents.map (·.1)).Nodup
  spelled : ∀ entry ∈ c.documents, ∃ document : Path, document.components = entry.1

namespace Tidy

variable {c : LinkCache}

theorem reset (tidy : c.Tidy) (document : Path) : (c.reset document).Tidy where
  nodup := tidy.nodup.sublist (List.filter_sublist.map _)
  spelled entry member := tidy.spelled entry (List.mem_of_mem_filter member)

theorem refresh (tidy : c.Tidy) (document : Path) (links : List Link) :
    (c.refresh document links).Tidy where
  nodup := by
    refine List.nodup_cons.mpr ⟨?_, (tidy.reset document).nodup⟩
    intro member
    obtain ⟨entry, kept, same⟩ := List.mem_map.mp member
    have apart := (List.mem_filter.mp kept).2
    rw [same] at apart
    simp at apart
  spelled entry member := by
    rcases List.mem_cons.mp member with rfl | later
    · exact ⟨document, rfl⟩
    · exact (tidy.reset document).spelled entry later

theorem empty : LinkCache.empty.Tidy where
  nodup := List.nodup_nil
  spelled _ member := absurd member List.not_mem_nil

theorem act (tidy : c.Tidy) (action : Action) : (c.act action).Tidy := by
  cases action with
  | refresh document text index scheme => exact tidy.refresh document _
  | reset document => exact tidy.reset document
  | clear => exact empty

theorem run (history : List Action) : (run history).Tidy := by
  induction history using List.reverseRecOn with
  | nil => exact empty
  | append_singleton history action ih =>
    rw [run_concat]
    exact ih.act action

theorem size_eq (tidy : c.Tidy) : (c.size : ℕ∞) =
    {components | ∃ document : Path, document.components = components ∧
      (c.get? document).isSome = true}.encard := by
  have known : ∀ document : Path, (c.get? document).isSome = true ↔
      document.components ∈ c.documents.map (·.1) := by
    intro document
    simp only [get?, List.lookup_isSome_iff, List.mem_map, beq_iff_eq]
    exact exists_congr fun entry => and_congr_right fun _ => eq_comm
  have keys : {components | ∃ document : Path, document.components = components ∧
      (c.get? document).isSome = true} = ↑(c.documents.map (·.1)).toFinset := by
    ext components
    simp only [Set.mem_ofPred_eq, List.coe_toFinset, known]
    constructor
    · rintro ⟨document, rfl, member⟩
      exact member
    · intro member
      obtain ⟨entry, listed, rfl⟩ := List.mem_map.mp member
      obtain ⟨document, same⟩ := tidy.spelled entry listed
      exact ⟨document, same, same ▸ member⟩
  rw [keys, Set.encard_coe_eq_coe_finsetCard, List.toFinset_card_of_nodup tidy.nodup,
    List.length_map, size]

end Tidy

/-- After any run the cache has for a document the links that it had when it was last refreshed, if
it was not dropped since, and none otherwise; its size is the number of such documents; and an
action changes nothing for documents that it does not concern. -/
theorem run_exact (history : List Action) :
    (∀ document text index scheme, LastRefreshed history document text index scheme →
      (run history).get? document = some (linksOf text index scheme)) ∧
    (∀ document, (¬ ∃ text index scheme, LastRefreshed history document text index scheme) →
      (run history).get? document = none) ∧
    ((run history).size : ℕ∞) = {components | ∃ document : Path,
      document.components = components ∧ ((run history).get? document).isSome = true}.encard ∧
    ∀ action document, ¬ action.Concerns document →
      ((run history).act action).get? document = (run history).get? document := by
  refine ⟨?_, ?_, (Tidy.run history).size_eq, fun action document aside => get?_act aside _⟩
  · intro document text index scheme last
    exact (get?_run_iff history document _).mpr ⟨text, index, scheme, last, rfl⟩
  · intro document never
    refine Option.eq_none_iff_forall_ne_some.mpr fun links known => never ?_
    obtain ⟨text, index, scheme, last, -⟩ := (get?_run_iff history document links).mp known
    exact ⟨text, index, scheme, last⟩

end RouteTags.LinkCache
