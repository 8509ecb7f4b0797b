import RouteTags.Proofs.Files.Absolute

namespace RouteTags.FileTree

variable {t t' t'' : FileTree} {cwd base l m : Location} {n : Node} {cs ds : List Component}
  {bytes : ByteArray} {p : Path}

def destination (l : Location) : Option Component → Location
  | some (.name s) => l ++ [s]
  | some .up => l.dropLast
  | _ => l

theorem follow_eq_ok_iff {c : Option Component} :
    t.follow base c = .ok m ↔ t.get? base = some .folder ∧ m = destination base c := by
  unfold follow
  cases t.get? base with
  | none => simp
  | some n =>
    cases n with
    | file bytes => simp
    | folder =>
      simp only [true_and, eq_comm (a := m)]
      match c with
      | none => simp [destination]
      | some .root => simp [destination]
      | some .here => simp [destination]
      | some .up => simp [destination]
      | some (.name s) => simp [destination]

theorem leads_cons_iff {c : Option Component} {cs : List (Option Component)} :
    (c :: cs).foldlM t.follow base = .ok l ↔
      t.get? base = some .folder ∧ cs.foldlM t.follow (destination base c) = .ok l := by
  rw [List.foldlM_cons]
  cases step : t.follow base c with
  | error e =>
    have stuck : t.get? base ≠ some .folder := by
      intro here
      rw [follow_eq_ok_iff.mpr ⟨here, rfl⟩] at step
      cases step
    simp [stuck, bind, Except.bind]
  | ok m =>
    obtain ⟨here, rfl⟩ := follow_eq_ok_iff.mp step
    simp [here, bind, Except.bind]

theorem leads_append_iff {cs ds : List (Option Component)} :
    (cs ++ ds).foldlM t.follow base = .ok l ↔
      ∃ m, cs.foldlM t.follow base = .ok m ∧ ds.foldlM t.follow m = .ok l := by
  rw [List.foldlM_append]
  cases cs.foldlM t.follow base <;> simp [bind, Except.bind]

theorem eq_of_leads {cs : List (Option Component)} (one : cs.foldlM t.follow base = .ok l)
    (two : cs.foldlM t'.follow base = .ok m) : l = m := by
  induction cs generalizing base with
  | nil =>
    cases one
    cases two
    rfl
  | cons c cs ih => exact ih (leads_cons_iff.mp one).2 (leads_cons_iff.mp two).2

def KeepsFolders (t t' : FileTree) : Prop := ∀ m, t.get? m = some .folder → t'.get? m = some .folder

theorem KeepsFolders.leads (keeps : t.KeepsFolders t') {cs : List (Option Component)}
    (leads : cs.foldlM t.follow base = .ok l) : cs.foldlM t'.follow base = .ok l := by
  induction cs generalizing base with
  | nil => exact leads
  | cons c cs ih =>
    obtain ⟨here, further⟩ := leads_cons_iff.mp leads
    exact leads_cons_iff.mpr ⟨keeps base here, ih further⟩

theorem KeepsFolders.locate (keeps : t.KeepsFolders t') (leads : t.locate cwd p = .ok l) :
    t'.locate cwd p = .ok l := by
  unfold FileTree.locate at leads ⊢
  split
  · rename_i empty
    rw [if_pos empty] at leads
    cases leads
  · rename_i content
    rw [if_neg content] at leads
    exact keeps.leads leads

theorem KeepsFolders.insert (other : t.get? l ≠ some .folder) : t.KeepsFolders (t.insert l n) := by
  intro m folder
  have below := below_top other
  have apart : m ≠ l := by
    rintro rfl
    exact other folder
  rw [get?_insert below, if_neg apart]
  exact folder

theorem writeBytes_eq_ok_iff : t.writeBytes cwd p bytes = .ok t' ↔
    ∃ l, t.locate cwd p = .ok l ∧ t.get? l ≠ some .folder ∧ t' = t.insert l (.file bytes) := by
  unfold writeBytes
  cases t.locate cwd p with
  | error e => simp [bind, Except.bind]
  | ok l =>
    simp only [bind, Except.bind, Except.ok.injEq, exists_eq_left']
    cases t.get? l with
    | none => simp [pure, Except.pure, eq_comm]
    | some n => cases n <;> simp [pure, Except.pure, throw, throwThe, MonadExceptOf.throw, eq_comm]

theorem lookup_insert (leads : t.locate cwd p = .ok l) (other : t.get? l ≠ some .folder) :
    (t.insert l (.file bytes)).lookup cwd p = .ok (l, .file bytes) := by
  have below := below_top other
  exact lookup_eq_ok_iff.mpr
    ⟨(KeepsFolders.insert other).locate leads, by rw [get?_insert below, if_pos rfl]⟩

theorem readBytes_of_lookup (found : t.lookup cwd p = .ok (l, .file bytes)) :
    t.readBytes cwd p = .ok bytes := by
  rw [readBytes, found]
  rfl

theorem writeBytes_of_lookup (found : t.lookup cwd p = .ok (l, .file bytes)) :
    t.writeBytes cwd p bytes = .ok t := by
  obtain ⟨leads, there⟩ := lookup_eq_ok_iff.mp found
  have other : t.get? l ≠ some .folder := by simp [there]
  exact writeBytes_eq_ok_iff.mpr
    ⟨l, leads, other, (insert_of_get? there (below_top other)).symm⟩

/-- The tree has all that it had, and beside that no more than folders on the way along some
components. -/
structure Gains (t t' : FileTree) (cwd : Location) (cs : List Component) : Prop where
  kept : ∀ m n, t.get? m = some n → t'.get? m = some n
  made : ∀ m, t.get? m = none → t'.get? m = none ∨
    t'.get? m = some .folder ∧ ∃ front, front <+: cs ∧ t'.locateComponents cwd front = .ok m

namespace Gains

theorem refl (t : FileTree) (cwd : Location) (cs : List Component) : t.Gains t cwd cs :=
  ⟨fun _ _ there => there, fun _ nothing => .inl nothing⟩

theorem keepsFolders (gains : t.Gains t' cwd cs) : t.KeepsFolders t' :=
  fun m folder => gains.kept m .folder folder

theorem longer (gains : t.Gains t' cwd cs) (front : cs <+: ds) : t.Gains t' cwd ds := by
  refine ⟨gains.kept, ?_⟩
  intro m nothing
  refine (gains.made m nothing).imp_right ?_
  rintro ⟨folder, first, onTheWay, leads⟩
  exact ⟨folder, first, onTheWay.trans front, leads⟩

theorem trans (one : t.Gains t' cwd cs) (two : t'.Gains t'' cwd cs) : t.Gains t'' cwd cs := by
  refine ⟨fun m n there => two.kept m n (one.kept m n there), ?_⟩
  intro m nothing
  rcases one.made m nothing with still | ⟨folder, front, onTheWay, leads⟩
  · exact two.made m still
  · exact .inr ⟨two.keepsFolders m folder, front, onTheWay, two.keepsFolders.leads leads⟩

end Gains

theorem makeFolder_eq_ok_iff : t.makeFolder cwd cs = .ok t' ↔
    ∃ l, t.locateComponents cwd cs = .ok l ∧ t.get? l = none ∧ t' = t.insert l .folder := by
  unfold makeFolder
  cases t.locateComponents cwd cs with
  | error e => simp [bind, Except.bind]
  | ok l =>
    simp only [bind, Except.bind, Except.ok.injEq, exists_eq_left']
    cases t.get? l <;> simp [pure, Except.pure, throw, throwThe, MonadExceptOf.throw, eq_comm]

theorem gains_insert (leads : t.locateComponents cwd cs = .ok l) (nothing : t.get? l = none) :
    t.Gains (t.insert l .folder) cwd cs := by
  have other : t.get? l ≠ some .folder := by simp [nothing]
  have below := below_top other
  have keeps : t.KeepsFolders (t.insert l .folder) := KeepsFolders.insert other
  refine ⟨?_, ?_⟩
  · intro m n there
    have apart : m ≠ l := by
      rintro rfl
      rw [nothing] at there
      cases there
    rw [get?_insert below, if_neg apart, there]
  · intro m _
    rw [get?_insert below]
    split
    · rename_i here
      exact .inr ⟨rfl, cs, List.prefix_rfl, here ▸ keeps.leads leads⟩
    · rename_i still _
      exact .inl still

theorem ensureFolder_spec (made : t.ensureFolder cwd cs = .ok t') :
    t.Gains t' cwd cs ∧ ∃ l, t'.locateComponents cwd cs = .ok l ∧ t'.get? l = some .folder := by
  unfold ensureFolder at made
  cases new : t.makeFolder cwd cs with
  | ok t₁ =>
    rw [new] at made
    obtain rfl := Except.ok.inj made
    obtain ⟨l, leads, nothing, rfl⟩ := makeFolder_eq_ok_iff.mp new
    have gains := gains_insert leads nothing
    have other : t.get? l ≠ some .folder := by simp [nothing]
    have below := below_top other
    exact ⟨gains, l, gains.keepsFolders.leads leads, by rw [get?_insert below, if_pos rfl]⟩
  | error e =>
    rw [new] at made
    cases leads : t.locateComponents cwd cs with
    | error e =>
      rw [leads] at made
      cases made
    | ok l =>
      rw [leads] at made
      simp only at made
      split at made
      · rename_i folder
        obtain rfl := Except.ok.inj made
        exact ⟨.refl t cwd cs, l, leads, folder⟩
      · cases made

theorem ensureFolder_of_folder (leads : t.locateComponents cwd cs = .ok l)
    (folder : t.get? l = some .folder) : t.ensureFolder cwd cs = .ok t := by
  have old : t.makeFolder cwd cs = .error .alreadyExists := by
    rw [makeFolder, leads]
    simp only [bind, Except.bind, folder]
    rfl
  rw [ensureFolder, old, leads]
  simp only [folder]

theorem ensureFolders_spec (t : FileTree) (cwd : Location) (backwards : List Component) :
    t.Gains (t.ensureFolders cwd backwards).1 cwd backwards.reverse ∧
      ((t.ensureFolders cwd backwards).2 = none → backwards ≠ [] →
        ∃ l, (t.ensureFolders cwd backwards).1.locateComponents cwd backwards.reverse = .ok l ∧
          (t.ensureFolders cwd backwards).1.get? l = some .folder) := by
  induction backwards with
  | nil => exact ⟨.refl t cwd [], fun _ content => absurd rfl content⟩
  | cons c before ih =>
    have shorter : before.reverse <+: (c :: before).reverse := by
      rw [List.reverse_cons]
      exact List.prefix_append _ _
    unfold ensureFolders
    split
    · rename_i t₁ made
      exact (ensureFolder_spec made).imp_right fun found _ _ => found
    · split
      · rename_i t₁ e stopped
        rw [stopped] at ih
        exact ⟨ih.1.longer shorter, fun none => by cases none⟩
      · rename_i t₁ done
        rw [done] at ih
        have gains := ih.1.longer shorter
        split
        · rename_i t₂ made
          obtain ⟨more, found⟩ := ensureFolder_spec made
          exact ⟨gains.trans more, fun _ _ => found⟩
        · exact ⟨gains, fun none => by cases none⟩
    · exact ⟨.refl t cwd _, fun none => by cases none⟩

theorem makeFolders_of_folder (content : p.components ≠ [])
    (leads : t.locateComponents cwd p.components = .ok l) (folder : t.get? l = some .folder) :
    t.makeFolders cwd p = (t, none) := by
  obtain ⟨front, last, split⟩ := (List.eq_nil_or_concat' p.components).resolve_left content
  rw [split] at leads
  have there : t.ensureFolder cwd (last :: front.reverse).reverse = .ok t := by
    rw [List.reverse_cons, List.reverse_reverse]
    exact ensureFolder_of_folder leads folder
  rw [makeFolders, split, List.reverse_append, List.reverse_singleton, List.singleton_append,
    ensureFolders, there]

end RouteTags.FileTree
