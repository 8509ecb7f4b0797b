import RouteTags.Proofs.Files.Paths
import RouteTags.Proofs.Path.Tight

/-! A path made absolute leads where the path leads, as far as folders go. Empty pieces, dots and the
root take no step, so only what is left without them counts; but they ask for a folder, and so
behind a file they are not left out for nothing. -/
namespace RouteTags.FileTree

variable {t : FileTree} {cwd base l : Location}

/-- The name under which a component stands in a path that is made absolute, if it does. -/
def nameOf : Component → Option String
  | .name s => some s
  | .up => some ".."
  | _ => none

def isStep (c : Option Component) : Bool := (c.bind nameOf).isSome

theorem follow_of_quiet {c : Option Component} (quiet : isStep c = false)
    (here : t.get? base = some .folder) : t.follow base c = .ok base := by
  unfold follow
  rw [here]
  match c with
  | none => rfl
  | some .root => rfl
  | some .here => rfl
  | some .up => cases quiet
  | some (.name _) => cases quiet

theorem folder_of_follow {c : Option Component} {m : Location} (step : t.follow base c = .ok m) :
    t.get? base = some .folder := by
  unfold follow at step
  cases here : t.get? base with
  | none =>
    rw [here] at step
    cases step
  | some n =>
    cases n with
    | folder => rfl
    | file bytes =>
      rw [here] at step
      cases step

theorem folder_of_leads {cs : List (Option Component)} (leads : cs.foldlM t.follow base = .ok l)
    (ends : t.get? l = some .folder) : t.get? base = some .folder := by
  cases cs with
  | nil =>
    cases leads
    exact ends
  | cons c cs =>
    rw [List.foldlM_cons] at leads
    cases step : t.follow base c with
    | error e =>
      rw [step] at leads
      cases leads
    | ok m => exact folder_of_follow step

theorem leads_filter {cs : List (Option Component)} (leads : cs.foldlM t.follow base = .ok l) :
    (cs.filter isStep).foldlM t.follow base = .ok l := by
  induction cs generalizing base with
  | nil => exact leads
  | cons c cs ih =>
    rw [List.foldlM_cons] at leads
    cases step : t.follow base c with
    | error e =>
      rw [step] at leads
      cases leads
    | ok m =>
      rw [step] at leads
      have rest := ih leads
      by_cases counts : isStep c = true
      · rw [List.filter_cons_of_pos counts, List.foldlM_cons, step]
        exact rest
      · have stays := follow_of_quiet (Bool.eq_false_iff.mpr counts) (folder_of_follow step)
        rw [step] at stays
        rw [List.filter_cons_of_neg counts, ← Except.ok.inj stays]
        exact rest

theorem leads_of_filter {cs : List (Option Component)}
    (leads : (cs.filter isStep).foldlM t.follow base = .ok l) (ends : t.get? l = some .folder) :
    cs.foldlM t.follow base = .ok l := by
  induction cs generalizing base with
  | nil => exact leads
  | cons c cs ih =>
    by_cases counts : isStep c = true
    · rw [List.filter_cons_of_pos counts, List.foldlM_cons] at leads
      rw [List.foldlM_cons]
      cases step : t.follow base c with
      | error e =>
        rw [step] at leads
        cases leads
      | ok m =>
        rw [step] at leads
        exact ih leads
    · rw [List.filter_cons_of_neg counts] at leads
      have stays := follow_of_quiet (Bool.eq_false_iff.mpr counts) (folder_of_leads leads ends)
      rw [List.foldlM_cons, stays]
      exact ih leads

def stepsOf (s : List Char) : List (Option Component) :=
  ((Text.splitAt '/' s).map fun piece => (Path.inner piece).1).filter isStep

theorem stepsOf_append (s u : List Char) : stepsOf (s ++ '/' :: u) = stepsOf s ++ stepsOf u := by
  rw [stepsOf, Text.splitAt_append_cons, List.map_append, List.filter_append]
  rfl

theorem filter_leading (piece : List Char) :
    [(Path.leading piece).1].filter isStep = [(Path.inner piece).1].filter isStep := by
  unfold Path.leading
  split
  · rename_i empty
    rw [empty]
    rfl
  · split
    · rename_i dot
      rw [dot]
      rfl
    · rfl

theorem steps_pieces (p : Path) : (p.pieces.map (·.1)).filter isStep = stepsOf p.text.toList := by
  have chars : p = Path.ofChars p.text.toList := by rw [Path.ofChars, String.ofList_toList]
  cases cut : Text.splitAt '/' p.text.toList with
  | nil => exact absurd cut (Text.splitAt_ne_nil _ _)
  | cons first rest =>
    rw [stepsOf, cut]
    by_cases content : first ≠ [] ∨ rest ≠ []
    · have later : (rest.map Path.inner).map (·.1) = rest.map fun piece => (Path.inner piece).1 := by
        rw [List.map_map]
        rfl
      rw [chars, Path.pieces_of_splitAt cut content, List.map_cons, List.map_cons, later,
        ← List.singleton_append, List.filter_append, filter_leading, ← List.filter_append,
        List.singleton_append]
    · simp only [not_or, not_not] at content
      obtain ⟨rfl, rfl⟩ := content
      simp [Path.pieces, cut]
      rfl

def namesOf (cs : List (Option Component)) : List String := cs.filterMap (·.bind nameOf)

theorem nameOf_inner {piece : List Char} (counts : isStep (Path.inner piece).1 = true) :
    (Path.inner piece).1.bind nameOf = some (String.ofList piece) := by
  unfold Path.inner at counts ⊢
  split
  · rename_i quiet
    rw [if_pos quiet] at counts
    cases counts
  · split
    · rename_i up
      rw [up]
      rfl
    · rfl

theorem namesOf_stepsOf (s : List Char) : (namesOf (stepsOf s)).map String.toList =
    (Text.splitAt '/' s).filter fun piece => isStep (Path.inner piece).1 := by
  rw [stepsOf, namesOf]
  induction Text.splitAt '/' s with
  | nil => rfl
  | cons piece pieces ih =>
    rw [List.map_cons, List.filter_cons, List.filter_cons]
    split
    · rename_i counts
      simp only [List.filterMap_cons, nameOf_inner counts, List.map_cons, String.toList_ofList, ih]
    · exact ih

theorem solid_namesOf {s : List Char} {name : String} (h : name ∈ namesOf (stepsOf s)) :
    Path.Solid name := by
  have member := List.mem_map_of_mem (f := String.toList) h
  rw [namesOf_stepsOf] at member
  obtain ⟨inside, counts⟩ := List.mem_filter.mp member
  obtain ⟨c, step, -⟩ := Option.bind_eq_some_iff.mp (Option.eq_some_of_isSome counts)
  exact ⟨Text.not_mem_of_mem_splitAt inside, by rw [step]; rfl⟩

theorem stepsOf_names {names : List String} (slashless : ∀ name ∈ names, '/' ∉ name.toList) :
    stepsOf (String.intercalate "/" names).toList =
      (names.map fun name => (Path.inner name.toList).1).filter isStep := by
  by_cases none : names = []
  · rw [none]
    rfl
  · rw [stepsOf, Text.splitAt_intercalate slashless none, List.map_map]
    rfl

theorem stepsOf_namesOf (s : List Char) :
    ((namesOf (stepsOf s)).map fun name => (Path.inner name.toList).1).filter isStep =
      stepsOf s := by
  have pieces : (namesOf (stepsOf s)).map (fun name => (Path.inner name.toList).1) =
      ((namesOf (stepsOf s)).map String.toList).map fun piece => (Path.inner piece).1 := by
    rw [List.map_map]
    rfl
  rw [pieces, namesOf_stepsOf, stepsOf]
  simp only [List.filter_map, List.filter_filter, Function.comp_def, Bool.and_self]

theorem namesOf_filter (cs : List (Option Component)) : namesOf (cs.filter isStep) = namesOf cs := by
  induction cs with
  | nil => rfl
  | cons c cs ih =>
    rw [List.filter_cons, namesOf, namesOf, List.filterMap_cons]
    rw [namesOf, namesOf] at ih
    split
    · rw [List.filterMap_cons, ih]
    · rename_i quiet
      have none : c.bind nameOf = none := by simpa [isStep] using quiet
      rw [none, ih]

theorem namesOf_components (p : Path) :
    p.components.filterMap nameOf = namesOf (stepsOf p.text.toList) := by
  rw [← steps_pieces, namesOf_filter, Path.components, namesOf, List.filterMap_filterMap,
    List.filterMap_map]
  rfl

theorem absolute_eq {p : Path} (content : p.text.isEmpty = false) :
    ∃ slash, (slash = "" ∨ slash = "/") ∧ absolute cwd p =
      ⟨topOf p.text.toList ++ String.intercalate "/" ((if p.isAbsolute then [] else cwd) ++
        namesOf (stepsOf p.text.toList)) ++ slash⟩ := by
  have chars : ¬ p.text.toList.isEmpty = true := by simpa using content
  have body : absolute cwd p =
      if p.text.toList.isEmpty then p
      else
        let names := p.components.filterMap nameOf
        let names := if p.isAbsolute then names else cwd ++ names
        let slash := if p.text.toList.getLast? = some '/' ∧ names ≠ [] then "/" else ""
        ⟨topOf p.text.toList ++ String.intercalate "/" names ++ slash⟩ := rfl
  have names : (if p.isAbsolute then namesOf (stepsOf p.text.toList)
      else cwd ++ namesOf (stepsOf p.text.toList)) =
        (if p.isAbsolute then [] else cwd) ++ namesOf (stepsOf p.text.toList) := by
    split <;> rfl
  rw [body, if_neg chars]
  simp only [namesOf_components, names]
  have either : ∀ (q : Prop) [Decidable q],
      (if q then "/" else "") = "" ∨ (if q then "/" else "") = "/" := by
    intro q _
    split
    · exact .inr rfl
    · exact .inl rfl
  exact ⟨_, either _, rfl⟩

theorem steps_absolute {p : Path} (content : p.text.isEmpty = false)
    (proper : ∀ name ∈ cwd, ProperName name) :
    ((absolute cwd p).pieces.map (·.1)).filter isStep =
      (if p.isAbsolute then [] else cwd.map fun name => some (.name name)) ++
        stepsOf p.text.toList := by
  have nothing : stepsOf [] = [] := rfl
  have front : ∀ s u, stepsOf ((topOf s).toList ++ u) = stepsOf u := by
    intro s u
    have single := stepsOf_append [] u
    have double := stepsOf_append [] ('/' :: u)
    rw [List.nil_append, nothing, List.nil_append] at single double
    rw [single] at double
    unfold topOf
    split
    · exact single
    · exact double
    · exact single
  have back : ∀ s slash : String, slash = "" ∨ slash = "/" →
      stepsOf (s.toList ++ slash.toList) = stepsOf s.toList := by
    rintro s _ (rfl | rfl)
    · simp
    · have cut := stepsOf_append s.toList []
      rwa [nothing, List.append_nil] at cut
  obtain ⟨slash, ending, whole⟩ : ∃ slash, (slash = "" ∨ slash = "/") ∧ absolute cwd p = _ :=
    absolute_eq content
  have slashless : ∀ name ∈ (if p.isAbsolute then [] else cwd) ++ namesOf (stepsOf p.text.toList),
      '/' ∉ name.toList := by
    intro name h
    rcases List.mem_append.mp h with h | h
    · split at h
      · cases h
      · exact (proper name h).slashless
    · exact (solid_namesOf h).slashless
  have home : (cwd.map fun name => (Path.inner name.toList).1).filter isStep =
      cwd.map fun name => some (.name name) := by
    have each : cwd.map (fun name => (Path.inner name.toList).1) =
        cwd.map fun name => some (.name name) :=
      List.map_congr_left fun name h => congrArg Prod.fst (Path.inner_of_proper (proper name h))
    rw [each]
    apply List.filter_eq_self.mpr
    intro c member
    obtain ⟨name, -, rfl⟩ := List.mem_map.mp member
    rfl
  rw [steps_pieces, whole, String.toList_append, back _ _ ending, String.toList_append, front,
    stepsOf_names slashless, List.map_append, List.filter_append, stepsOf_namesOf]
  split
  · rfl
  · rw [home]

theorem isAbsolute_absolute {p : Path} (content : p.text.isEmpty = false) :
    (absolute cwd p).isAbsolute = true := by
  obtain ⟨slash, -, whole⟩ : ∃ slash, (slash = "" ∨ slash = "/") ∧ absolute cwd p = _ :=
    absolute_eq content
  have front : ∀ s, ∃ rest, (topOf s).toList = '/' :: rest := by
    intro s
    unfold topOf
    split <;> exact ⟨_, rfl⟩
  obtain ⟨rest, front⟩ := front p.text.toList
  rw [whole, Path.isAbsolute, String.toList_append, String.toList_append, front]
  rfl

theorem lookup_of_absolute (wellFormed : t.WellFormed) (home : t.get? cwd = some .folder)
    {p : Path} (found : t.lookup cwd (absolute cwd p) = .ok (l, .folder)) :
    t.lookup cwd p = .ok (l, .folder) := by
  cases content : p.text.isEmpty with
  | true =>
    have same : absolute cwd p = p := by
      have chars : p.text.toList.isEmpty = true := by simpa using content
      rw [absolute, chars]
      rfl
    rwa [same] at found
  | false =>
    obtain ⟨leads, ends⟩ := lookup_eq_ok_iff.mp found
    have steps : ((absolute cwd p).pieces.map (·.1)).foldlM t.follow [] = .ok l := by
      rw [locate, isAbsolute_absolute content] at leads
      split at leads
      · cases leads
      · exact leads
    have kept := leads_filter steps
    rw [steps_absolute content (wellFormed.proper home)] at kept
    refine lookup_eq_ok_iff.mpr ⟨?_, ends⟩
    rw [locate, content]
    apply leads_of_filter _ ends
    rw [steps_pieces]
    cases rooted : p.isAbsolute with
    | true =>
      rw [rooted] at kept
      exact kept
    | false =>
      rw [rooted, List.foldlM_append] at kept
      simp only [Bool.false_eq_true, if_false, leads_from_top wellFormed home] at kept
      exact kept

/-- What is there resolves without detours, and so does what is missing, be it made absolute. Only a
path that goes on behind a file, where it leads nowhere, can be a file once it is made absolute. -/
theorem straight_of_no_file (wellFormed : t.WellFormed) (home : t.get? cwd = some .folder)
    {p : Path} (noFile : t.pathExists cwd p = true ∨
      ∀ m bytes, t.lookup cwd (absolute cwd p) ≠ .ok (m, .file bytes)) : t.Straight cwd p := by
  cases found : t.lookup cwd p with
  | ok result => exact straight_of_pathExists wellFormed (by rw [pathExists, found]; rfl)
  | error e =>
    have absent : t.pathExists cwd p = false := by rw [pathExists, found]; rfl
    have made : t.resolve cwd p = absolute cwd p := by rw [resolve, found]
    intro m leads there
    rw [made] at leads
    obtain ⟨n, placed⟩ := Option.isSome_iff_exists.mp there
    have present := lookup_eq_ok_iff.mpr ⟨leads, placed⟩
    cases n with
    | folder =>
      rw [lookup_of_absolute wellFormed home present] at found
      cases found
    | file bytes =>
      rw [absent] at noFile
      exact absurd present (noFile.resolve_left Bool.false_ne_true m bytes)

end RouteTags.FileTree
