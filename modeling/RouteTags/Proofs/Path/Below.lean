import RouteTags.Proofs.Path.Locations
import Mathlib.Data.List.DropRight

namespace RouteTags.Path

theorem joinWith_names (names : List String) :
    Text.joinWith '/' (names.map String.toList) = (String.intercalate "/" names).toList := by
  induction names with
  | nil => rfl
  | cons name names ih =>
    cases names with
    | nil => simp [Text.joinWith]
    | cons next names => simpa [Text.joinWith] using ih

theorem dropWhile_names (names : List String) :
    (names.map pieceOf).dropWhile (·.1.isNone) = names.map pieceOf := by
  cases names <;> rfl

theorem trimPieces_names (names : List String) :
    trimPieces (names.map pieceOf) = names.map pieceOf := by
  have backwards := dropWhile_names names.reverse
  rw [List.map_reverse] at backwards
  rw [trimPieces, backwards, List.reverse_reverse]

theorem ofPieces_names (names : List String) : ofPieces (names.map pieceOf) = .ofNames names := by
  have texts : (names.map pieceOf).map (·.2) = names.map String.toList := by
    rw [List.map_map]
    rfl
  have whole : ofPieces (names.map pieceOf) =
      ⟨String.ofList (Text.joinWith '/' ((names.map pieceOf).map (·.2)))⟩ := by
    match names with
    | [] => rfl
    | [_] => rfl
    | _ :: _ :: _ => rfl
  rw [whole, texts, joinWith_names, String.ofList_toList]
  rfl

theorem filterMap_dropWhile (ps : List Piece) :
    (ps.dropWhile (·.1.isNone)).filterMap (·.1) = ps.filterMap (·.1) := by
  induction ps with
  | nil => rfl
  | cons piece ps ih =>
    obtain ⟨component, text⟩ := piece
    cases component with
    | none => simpa using ih
    | some component => rfl

theorem filterMap_trimPieces (ps : List Piece) :
    (trimPieces ps).filterMap (·.1) = ps.filterMap (·.1) := by
  rw [trimPieces, List.filterMap_reverse, filterMap_dropWhile, List.filterMap_reverse,
    List.reverse_reverse]

theorem last_trimPieces {ps : List Piece} {last : Piece}
    (ends : (trimPieces ps).getLast? = some last) : last.1.isNone = false := by
  have content : trimPieces ps ≠ [] := by
    intro none
    rw [none] at ends
    cases ends
  have stops := List.rdropWhile_last_not (fun piece : Piece => piece.1.isNone) ps content
  rw [List.getLast?_eq_some_getLast content] at ends
  rw [← Option.some.inj ends]
  exact Bool.eq_false_iff.mpr stops

theorem exists_dropComponents {cs ds : List Component} {ps : List Piece}
    (whole : ps.filterMap (·.1) = cs ++ ds) :
    ∃ qs, dropComponents cs ps = some qs ∧ qs <:+ ps ∧ qs.filterMap (·.1) = ds := by
  induction ps generalizing cs with
  | nil =>
    obtain ⟨rfl, rfl⟩ := List.append_eq_nil_iff.mp whole.symm
    exact ⟨[], rfl, List.suffix_rfl, rfl⟩
  | cons piece ps ih =>
    obtain ⟨component, text⟩ := piece
    cases cs with
    | nil => exact ⟨_, rfl, List.suffix_rfl, whole⟩
    | cons c cs =>
      cases component with
      | none =>
        obtain ⟨qs, dropped, suffix, rest⟩ := ih whole
        exact ⟨qs, dropped, suffix.trans (List.suffix_cons _ ps), rest⟩
      | some d =>
        obtain ⟨rfl, later⟩ := List.cons.inj whole
        obtain ⟨qs, dropped, suffix, rest⟩ := ih later
        exact ⟨qs, by rw [dropComponents, if_pos rfl, dropped], suffix.trans (List.suffix_cons _ ps),
          rest⟩

theorem exists_first_piece {p : Path} (content : p.components ≠ []) :
    ∃ first text, p.pieces = (some first, text) :: p.pieces.tail ∧
      ∀ piece ∈ p.pieces.tail, ∃ s, '/' ∉ s ∧ piece = inner s := by
  obtain ⟨s, rfl⟩ : ∃ s, p = ofChars s := ⟨p.text.toList, by rw [ofChars, String.ofList_toList]⟩
  cases cut : Text.splitAt '/' s with
  | nil => exact absurd cut (Text.splitAt_ne_nil '/' s)
  | cons piece more =>
    have filled : piece ≠ [] ∨ more ≠ [] := by
      by_contra none
      simp only [not_or, not_not] at none
      rw [none.1, none.2] at cut
      rw [Text.eq_of_splitAt_singleton cut] at content
      exact content rfl
    have solid : ∃ c, (leading piece).1 = some c := by
      unfold leading inner
      split
      · exact ⟨_, rfl⟩
      · split
        · exact ⟨_, rfl⟩
        · rename_i nonempty other
          rw [if_neg (by simp [nonempty, other])]
          split <;> exact ⟨_, rfl⟩
    obtain ⟨c, first⟩ := solid
    rw [pieces_of_splitAt cut filled]
    refine ⟨c, (leading piece).2, by rw [← first]; rfl, ?_⟩
    intro inside member
    obtain ⟨text, listed, rfl⟩ := List.mem_map.mp member
    exact ⟨text, Text.not_mem_of_mem_splitAt (cut ▸ List.mem_cons_of_mem piece listed), rfl⟩

/-- Below a base lies what follows its components, from piece to piece as it was written. -/
theorem below?_of_components {p base : Path} {below : List Component}
    (content : base.components ≠ []) (whole : p.components = base.components ++ below) :
    ∃ pieces, p.below? base = some (ofPieces pieces) ∧ pieces.filterMap (·.1) = below ∧
      (∀ piece ∈ pieces, ∃ s, '/' ∉ s ∧ piece = inner s) ∧
      ∀ last, pieces.getLast? = some last → last.1.isNone = false := by
  have filled : p.components ≠ [] := by simp [whole, content]
  obtain ⟨first, text, cut, inside⟩ := exists_first_piece filled
  cases components : base.components with
  | nil => exact absurd components content
  | cons c cs =>
    have split : first :: p.pieces.tail.filterMap (·.1) = c :: (cs ++ below) := by
      rw [← List.cons_append, ← components, ← whole, Path.components, cut]
      rfl
    obtain ⟨rfl, later⟩ := List.cons.inj split
    obtain ⟨qs, dropped, suffix, rest⟩ := exists_dropComponents later
    refine ⟨trimPieces (qs.dropWhile (·.1.isNone)), ?_, ?_, ?_, ?_⟩
    · rw [below?, components, cut]
      simp only [dropComponents, if_pos, dropped, Option.map_some]
    · rw [filterMap_trimPieces, filterMap_dropWhile, rest]
    · intro piece member
      apply inside
      have front : trimPieces (qs.dropWhile (·.1.isNone)) <+: qs.dropWhile (·.1.isNone) :=
        List.rdropWhile_prefix _ _
      exact suffix.subset ((List.dropWhile_suffix _).subset (front.subset member))
    · exact fun last ends => last_trimPieces ends

end RouteTags.Path
