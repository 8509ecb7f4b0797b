import RouteTags.Proofs.Path.Join

/-! Paths from the top in which a slash is doubled in front at most. What lies of them below another
path is known by their components alone. -/
namespace RouteTags.Path

theorem exists_dropComponents_append (stem rest : List Piece) :
    ∃ quiet : List Piece, (∀ piece ∈ quiet, piece.1 = none) ∧
      dropComponents (stem.filterMap (·.1)) (stem ++ rest) = some (quiet ++ rest) := by
  induction stem with
  | nil => exact ⟨[], by simp, by simp [dropComponents]⟩
  | cons piece stem ih =>
    obtain ⟨quiet, silent, dropped⟩ := ih
    obtain ⟨_ | c, text⟩ := piece
    · have skip : ((none, text) :: stem).filterMap (·.1) = stem.filterMap (·.1) := rfl
      rw [skip]
      cases components : stem.filterMap (·.1) with
      | nil =>
        refine ⟨(none, text) :: stem, ?_, by simp [dropComponents]⟩
        simpa using List.filterMap_eq_nil_iff.mp components
      | cons c cs =>
        rw [components] at dropped
        exact ⟨quiet, silent, dropped⟩
    · have first : ((some c, text) :: stem).filterMap (·.1) = c :: stem.filterMap (·.1) := rfl
      rw [first, List.cons_append]
      exact ⟨quiet, silent, by rw [dropComponents, if_pos rfl, dropped]⟩

theorem trimPieces_between {quiet ends : List Piece} (names : List String)
    (silent : ∀ piece ∈ quiet, piece.1 = none) (still : ∀ piece ∈ ends, piece.1 = none) :
    trimPieces ((quiet ++ (names.map pieceOf ++ ends)).dropWhile (·.1.isNone)) =
      names.map pieceOf := by
  rw [List.dropWhile_append_of_pos (by simpa using silent)]
  cases names with
  | nil =>
    have all : ends.dropWhile (·.1.isNone) = [] :=
      List.dropWhile_eq_nil_iff.mpr (by simpa using still)
    rw [List.map_nil, List.nil_append, all]
    rfl
  | cons name names =>
    have stays : ((name :: names).map pieceOf ++ ends).dropWhile (·.1.isNone) =
        (name :: names).map pieceOf ++ ends := rfl
    have trimmed := trimPieces_names (name :: names)
    rw [trimPieces] at trimmed
    rw [stays, trimPieces, List.reverse_append,
      List.dropWhile_append_of_pos (by simpa using still), trimmed]

theorem below?_of_pieces {p base : Path} {stem ends : List Piece} {names : List String}
    (content : base.components ≠ []) (front : stem.filterMap (·.1) = base.components)
    (still : ∀ piece ∈ ends, piece.1 = none)
    (pieces : p.pieces = stem ++ (names.map pieceOf ++ ends)) :
    p.below? base = some (.ofNames names) := by
  obtain ⟨quiet, silent, dropped⟩ := exists_dropComponents_append stem (names.map pieceOf ++ ends)
  rw [front] at dropped
  rw [below?]
  split
  · rename_i none
    exact absurd none content
  · rw [pieces, dropped, Option.map_some, trimPieces_between names silent still, ofPieces_names]

structure Solid (name : String) : Prop where
  slashless : '/' ∉ name.toList
  counts : (inner name.toList).1.isSome = true

theorem Solid.nonempty {name : String} (solid : Solid name) : name.toList ≠ [] := by
  intro empty
  have counts := solid.counts
  rw [empty] at counts
  cases counts

theorem Solid.of_proper {name : String} (proper : ProperName name) : Solid name :=
  ⟨proper.slashless, by rw [inner_of_proper proper]; rfl⟩

/-- One slash or more in front, names with one slash between them, and perhaps one behind. -/
structure Tight (p : Path) (names : List String) : Prop where
  solid : ∀ name ∈ names, Solid name
  text : ∃ n slash, (slash = [] ∨ slash = ['/']) ∧ p.text.toList =
    List.replicate (n + 1) '/' ++ ((String.intercalate "/" names).toList ++ slash)

variable {p base : Path} {names more : List String}

theorem splitAt_replicate (n : Nat) (s : List Char) :
    Text.splitAt '/' (List.replicate n '/' ++ s) = List.replicate n [] ++ Text.splitAt '/' s := by
  induction n with
  | zero => rfl
  | succ n ih =>
    have first := Text.splitAt_append_cons '/' [] (List.replicate n '/' ++ s)
    rw [List.nil_append] at first
    rw [List.replicate_succ, List.cons_append, first, ih]
    rfl

theorem Tight.pieces (tight : p.Tight names) :
    ∃ quiet ends, (∀ piece ∈ quiet, piece.1 = none) ∧ (∀ piece ∈ ends, piece.1 = none) ∧
      p.pieces = (some .root, []) :: quiet ++ (names.map (inner ·.toList) ++ ends) := by
  obtain ⟨solid, n, slash, either, text⟩ := tight
  have chars : p = ofChars p.text.toList := by rw [ofChars, String.ofList_toList]
  have silent : ∀ piece ∈ (List.replicate n []).map inner, piece.1 = none := by
    intro piece member
    obtain ⟨s, inside, rfl⟩ := List.mem_map.mp member
    rw [List.eq_of_mem_replicate inside]
    rfl
  have body : ∃ ends, (∀ piece ∈ ends, (inner piece).1 = none) ∧
      Text.splitAt '/' ((String.intercalate "/" names).toList ++ slash) =
        names.map String.toList ++ ends := by
    have whole : ∃ ends, (∀ piece ∈ ends, (inner piece).1 = none) ∧
        Text.splitAt '/' (String.intercalate "/" names).toList =
          names.map String.toList ++ ends := by
      by_cases none : names = []
      · exact ⟨[[]], by simp [inner], by rw [none]; rfl⟩
      · refine ⟨[], by simp, ?_⟩
        rw [Text.splitAt_intercalate (fun name h => (solid name h).slashless) none, List.append_nil]
    obtain ⟨ends, still, cut⟩ := whole
    rcases either with rfl | rfl
    · exact ⟨ends, still, by rw [List.append_nil, cut]⟩
    · refine ⟨ends ++ [[]], ?_, ?_⟩
      · intro piece member
        rcases List.mem_append.mp member with member | member
        · exact still piece member
        · rw [List.mem_singleton.mp member]
          rfl
      · rw [Text.splitAt_append_cons, cut, List.append_assoc]
        rfl
  obtain ⟨ends, still, cut⟩ := body
  have split : Text.splitAt '/' p.text.toList =
      [] :: (List.replicate n [] ++ (names.map String.toList ++ ends)) := by
    rw [text, splitAt_replicate, cut]
    rfl
  have filled : List.replicate n [] ++ (names.map String.toList ++ ends) ≠ [] := by
    rw [← cut]
    simp [Text.splitAt_ne_nil]
  refine ⟨_, ends.map inner, silent, by simpa using still, ?_⟩
  rw [chars, pieces_of_splitAt split (.inr filled), List.map_append, List.map_append, List.map_map]
  rfl

theorem filterMap_of_silent {quiet : List Piece} (silent : ∀ piece ∈ quiet, piece.1 = none) :
    quiet.filterMap (·.1) = [] :=
  List.filterMap_eq_nil_iff.mpr silent

theorem map_inner_eq {names : List String} (solid : ∀ name ∈ names, Solid name)
    (components : (names.map (inner ·.toList)).filterMap (·.1) = more.map .name) :
    names.map (inner ·.toList) = more.map pieceOf := by
  induction names generalizing more with
  | nil =>
    rw [List.map_eq_nil_iff.mp components.symm]
    rfl
  | cons name names ih =>
    obtain ⟨c, counts⟩ := Option.isSome_iff_exists.mp (solid name List.mem_cons_self).counts
    rw [List.map_cons, List.filterMap_cons_some counts] at components
    obtain ⟨first, rest, rfl, rfl, later⟩ := List.map_eq_cons_iff.mp components.symm
    have text := eq_of_inner_eq_name counts
    rw [String.ofList_toList] at text
    rw [List.map_cons, List.map_cons,
      ih (fun name h => solid name (List.mem_cons_of_mem _ h)) later.symm, pieceOf, text]
    congr 1
    exact Prod.ext (text ▸ counts) (inner_snd _)

theorem Tight.below? (tight : p.Tight names) (content : base.components ≠ [])
    (whole : p.components = base.components ++ more.map .name) :
    p.below? base = some (.ofNames more) := by
  obtain ⟨quiet, ends, silent, still, pieces⟩ := tight.pieces
  have top : ∀ ps : List Piece, ((Option.some Component.root, []) :: ps : List Piece).filterMap (·.1) =
      .root :: ps.filterMap (·.1) := fun _ => rfl
  obtain ⟨c, cs, rooted⟩ := List.exists_cons_of_ne_nil content
  rw [components, pieces, rooted, List.cons_append, List.cons_append, top, List.filterMap_append,
    List.filterMap_append, filterMap_of_silent silent, filterMap_of_silent still, List.nil_append,
    List.append_nil] at whole
  obtain ⟨rfl, inside⟩ := List.cons.inj whole
  obtain ⟨front, back, split, before, behind⟩ := List.filterMap_eq_append_iff.mp inside
  obtain ⟨first, last, rfl, rfl, rfl⟩ := List.map_eq_append_iff.mp split
  -- What is left below the base is names, so each piece is spelled as its component.
  have named := map_inner_eq (fun name h => tight.solid name (List.mem_append_right first h)) behind
  have stem : ((Option.some Component.root, []) :: (quiet ++ first.map (inner ·.toList))).filterMap
      (·.1) = base.components := by
    rw [top, List.filterMap_append, filterMap_of_silent silent, List.nil_append, before, rooted]
  refine below?_of_pieces content stem still ?_
  rw [pieces, split, named]
  simp

theorem exists_last (solid : ∀ name ∈ names, Solid name) (some : names ≠ []) :
    ∃ before last, (String.intercalate "/" names).toList = before ++ last ∧ last ≠ [] ∧
      '/' ∉ last := by
  obtain ⟨front, last, rfl⟩ := (List.eq_nil_or_concat' names).resolve_left some
  have named := solid last (by simp)
  obtain ⟨before, inside⟩ := Text.exists_intercalate_concat front last
  exact ⟨before, last.toList, inside, named.nonempty, named.slashless⟩

theorem Tight.join (tight : p.Tight names) (proper : ∀ name ∈ more, ProperName name)
    (content : more ≠ []) : (p.join (.ofNames more)).Tight (names ++ more) := by
  obtain ⟨solid, n, slash, either, text⟩ := tight
  have chars : p = ofChars p.text.toList := by rw [ofChars, String.ofList_toList]
  have behind : ∀ front, p.text.toList = front ++ ['/'] → (p.join (.ofNames more)).text.toList =
      front ++ '/' :: (String.intercalate "/" more).toList := by
    intro front ends
    rw [chars, ends, join_slash proper content, ofChars, String.toList_ofList]
  refine ⟨?_, ?_⟩
  · intro name member
    rcases List.mem_append.mp member with member | member
    · exact solid name member
    · exact .of_proper (proper name member)
  · by_cases none : names = []
    -- The slashes in front are all that there is, and the last of them does for the join.
    · subst none
      have whole : p.text.toList = List.replicate (n + slash.length) '/' ++ ['/'] := by
        rw [text, ← List.replicate_succ']
        rcases either with rfl | rfl
        · exact List.append_nil _
        · exact List.replicate_succ'.symm
      refine ⟨n + slash.length, [], .inl rfl, ?_⟩
      rw [behind _ whole, List.replicate_succ', List.append_assoc, List.append_nil,
        List.singleton_append, List.nil_append]
    · refine ⟨n, [], .inl rfl, ?_⟩
      have body := Text.toList_intercalate_append none content
      rw [List.append_nil, body]
      rcases either with rfl | rfl
      · have filled : p.text.toList ≠ [] := by simp [text]
        have ends : p.text.toList.getLast? ≠ some '/' := by
          obtain ⟨before, last, inside, nonempty, slashless⟩ := exists_last solid none
          rw [text, List.append_nil, inside, ← List.append_assoc,
            List.getLast?_append_of_ne_nil _ nonempty]
          exact fun slash => slashless (List.mem_of_getLast? slash)
        rw [chars, join_solid proper content filled ends, ofChars, String.toList_ofList, text,
          List.append_nil, List.append_assoc]
      · rw [← List.append_assoc] at text
        rw [behind _ text, List.append_assoc]

end RouteTags.Path
