import RouteTags.Files.Tree
import RouteTags.Proofs.Ascending

namespace RouteTags.FileTree

variable {t : FileTree} {l : Location} {n : Node} {bytes : ByteArray}

theorem mem_files_iff : (l, bytes) ∈ t.files ↔ (l, .file bytes) ∈ t.entries := by
  simp only [files, List.mem_filterMap]
  constructor
  · rintro ⟨⟨k, n⟩, member, found⟩
    cases n with
    | folder => cases found
    | file bytes =>
      cases found
      exact member
  · intro member
    exact ⟨_, member, rfl⟩

theorem files_ascending (t : FileTree) :
    t.files.Pairwise fun a b => compare a.1 b.1 = .lt := by
  refine t.ascending.filterMap _ ?_
  rintro ⟨k, n⟩ ⟨k', n'⟩ lower file found file' found'
  cases n with
  | folder => cases found
  | file bytes =>
    cases n' with
    | folder => cases found'
    | file bytes' =>
      cases found
      cases found'
      exact lower

theorem bytes_unique {other : ByteArray} (one : (l, bytes) ∈ t.files)
    (two : (l, other) ∈ t.files) : bytes = other :=
  congrArg Prod.snd (eq_of_key t.files_ascending one two rfl)

theorem lookup_of_mem {entries : List (Location × Node)}
    (ascending : entries.Pairwise fun a b => compare a.1 b.1 = .lt) (member : (l, n) ∈ entries) :
    entries.lookup l = some n := by
  induction entries with
  | nil => cases member
  | cons first rest ih =>
    obtain ⟨k, o⟩ := first
    obtain ⟨least, ascending⟩ := List.pairwise_cons.mp ascending
    rcases List.mem_cons.mp member with same | further
    · cases same
      simp
    · have skip : (l == k) = false := by simpa using (ne_of_ascends (least _ further)).symm
      rw [List.lookup_cons, skip]
      exact ih ascending further

theorem get?_of_mem_files (there : (l, bytes) ∈ t.files) : (t.get? l).isSome = true := by
  cases l with
  | nil => rfl
  | cons name names =>
    have found : t.get? (name :: names) = some (.file bytes) :=
      lookup_of_mem t.ascending (mem_files_iff.mp there)
    rw [found]
    rfl

theorem mem_entries_of_get? (there : t.get? l = some n) (below : l ≠ []) : (l, n) ∈ t.entries := by
  cases l with
  | nil => exact absurd rfl below
  | cons name names =>
    obtain ⟨before, after, split, -⟩ := List.lookup_eq_some_iff.mp there
    rw [split]
    exact List.mem_append_right before List.mem_cons_self

theorem insertEntry_of_mem {n' : Node} {entries : List (Location × Node)}
    (ascending : entries.Pairwise fun a b => compare a.1 b.1 = .lt) (member : (l, n) ∈ entries) :
    insertEntry l n' entries = entries.map fun e => if e.1 = l then (l, n') else e := by
  induction entries with
  | nil => cases member
  | cons first rest ih =>
    obtain ⟨k, o⟩ := first
    obtain ⟨least, ascending⟩ := List.pairwise_cons.mp ascending
    rw [insertEntry, List.map_cons]
    by_cases here : k = l
    · subst here
      have others : rest.map (fun e => if e.1 = k then (k, n') else e) = rest := by
        refine (List.map_congr_left fun e he => ?_).trans (List.map_id rest)
        exact if_neg (ne_of_ascends (least e he)).symm
      rw [Std.compare_eq_iff_eq.mpr rfl, if_pos rfl, others]
    · have further : (l, n) ∈ rest := by
        rcases List.mem_cons.mp member with same | further
        · exact absurd (congrArg Prod.fst same).symm here
        · exact further
      rw [Std.OrientedCmp.gt_of_lt (least _ further), if_neg here, ih ascending further]

theorem lookup_insertEntry {m : Location} (entries : List (Location × Node)) :
    (insertEntry l n entries).lookup m = if m = l then some n else entries.lookup m := by
  have absent : ∀ {k : Location}, m ≠ k → (m == k) = false := fun h => beq_false_of_ne h
  induction entries with
  | nil =>
    by_cases here : m = l
    · simp [insertEntry, here]
    · simp [insertEntry, List.lookup_cons, absent here, here]
  | cons first rest ih =>
    obtain ⟨k, o⟩ := first
    unfold insertEntry
    by_cases here : m = l
    · subst here
      split
      · simp
      · simp
      · rename_i further
        have other : m ≠ k := by
          rintro rfl
          rw [Std.compare_eq_iff_eq.mpr rfl] at further
          cases further
        simp [List.lookup_cons, absent other, ih]
    · split
      · simp [List.lookup_cons, absent here, here]
      · rename_i same
        obtain rfl := Std.LawfulEqCmp.eq_of_compare same
        simp [List.lookup_cons, absent here, here]
      · rw [List.lookup_cons, ih, if_neg here, if_neg here, List.lookup_cons]

theorem below_top (other : t.get? l ≠ some .folder) : l ≠ [] := by
  rintro rfl
  exact other rfl

theorem get?_insert (below : l ≠ []) (m : Location) :
    (t.insert l n).get? m = if m = l then some n else t.get? m := by
  cases m with
  | nil => rw [if_neg below.symm, get?, get?]
  | cons name names => exact lookup_insertEntry t.entries

theorem insert_of_get? (there : t.get? l = some n) (below : l ≠ []) : t.insert l n = t := by
  obtain ⟨entries, ascending⟩ := t
  have member := mem_entries_of_get? there below
  have same : insertEntry l n entries = entries := by
    rw [insertEntry_of_mem ascending member]
    refine (List.map_congr_left ?_).trans (List.map_id entries)
    intro e he
    split
    · rename_i here
      exact (eq_of_key ascending he member here).symm
    · rfl
  simp only [insert, same]

theorem below?_eq_some_iff {base l : Location} {names : List String} :
    below? base l = some names ↔ l = base ++ names := by
  induction base generalizing l with
  | nil => simp [below?]
  | cons a base ih =>
    cases l with
    | nil => simp [below?]
    | cons b rest =>
      by_cases same : a = b
      · simp [below?, same, ih]
      · simp [below?, same, Ne.symm same]

theorem below?_append (base names : Location) : below? base (base ++ names) = some names :=
  below?_eq_some_iff.mpr rfl

end RouteTags.FileTree
