import RouteTags.Proofs.Ascending
import RouteTags.Proofs.Files.Reached
import RouteTags.Scan

/-! Selecting files by marking them one at a time. The invariant says which marks there are and
nothing of when they came, so finds in any order, and found however often, select the same. Only the
spelling of a path is that of the find that came first. -/
namespace RouteTags

theorem Path.ne_of_order_lt {p q : Path} (lower : p.order q = .lt) : p.components ≠ q.components := by
  intro same
  rw [Path.order_eq_iff.mpr same] at lower
  cases lower

def Config.side (c : Config) : TagKind → Side
  | .backend => c.backend
  | .frontend => c.frontend

namespace Selected

def has (f : Selected) : TagKind → Bool
  | .backend => f.backend
  | .frontend => f.frontend

def file (f : Selected) : Path × ByteArray := (f.path, f.bytes)

def unspelled (f : Selected) : List Component × ByteArray × Bool × Bool :=
  (f.path.components, f.bytes, f.backend, f.frontend)

theorem has_mark (f : Selected) (kind k : TagKind) :
    (f.mark kind).has k = true ↔ f.has k = true ∨ k = kind := by
  cases kind <;> cases k <;> simp [mark, has]

theorem file_mark (f : Selected) (kind : TagKind) : (f.mark kind).file = f.file := by
  cases kind <;> rfl

theorem has_unmarked (p : Path) (bytes : ByteArray) (k : TagKind) :
    ¬ (unmarked p bytes).has k = true := by
  cases k <;> simp [unmarked, has]

theorem unspelled_eq {f g : Selected} (same : f.path.components = g.path.components)
    (bytes : f.bytes = g.bytes) (marks : ∀ kind, f.has kind = true ↔ g.has kind = true) :
    f.unspelled = g.unspelled := by
  have first : f.backend = g.backend := Bool.eq_iff_iff.mpr (marks .backend)
  have second : f.frontend = g.frontend := Bool.eq_iff_iff.mpr (marks .frontend)
  rw [unspelled, same, bytes, first, second, unspelled]

theorem mem_markIn_iff {kind : TagKind} {p : Path} {bytes : ByteArray} {f : Selected}
    {files : List Selected} (ascending : files.Pairwise fun a b => a.path.order b.path = .lt) :
    f ∈ markIn kind p bytes files ↔
      f ∈ files ∧ f.path.components ≠ p.components ∨
        f = ((files.find? fun g => g.path.same p).getD (unmarked p bytes)).mark kind := by
  induction files with
  | nil => simp [markIn]
  | cons first rest ih =>
    obtain ⟨least, ascending⟩ := List.pairwise_cons.mp ascending
    unfold markIn
    split
    · rename_i lower
      have apart : ∀ g ∈ first :: rest, g.path.components ≠ p.components := by
        intro g hg
        rcases List.mem_cons.mp hg with rfl | hg
        · exact (Path.ne_of_order_lt lower).symm
        · exact (Path.ne_of_order_lt (Std.TransCmp.lt_trans lower (least g hg))).symm
      have absent : (first :: rest).find? (fun g => g.path.same p) = none := by
        simpa only [List.find?_eq_none, Path.same_iff] using apart
      rw [absent, Option.getD_none, List.mem_cons, or_comm]
      exact or_congr_left (and_iff_left_of_imp (apart f)).symm
    · rename_i same
      have here : first.path.components = p.components := (Path.order_eq_iff.mp same).symm
      have apart : ∀ g ∈ rest, g.path.components ≠ p.components := fun g hg =>
        here ▸ (Path.ne_of_order_lt (least g hg)).symm
      have found : (first :: rest).find? (fun g => g.path.same p) = some first :=
        List.find?_cons_of_pos (Path.same_iff.mpr here)
      rw [found, Option.getD_some, List.mem_cons, or_comm, List.mem_cons]
      refine or_congr_left ⟨fun hf => ⟨.inr hf, apart f hf⟩, ?_⟩
      rintro ⟨rfl | hf, other⟩
      · exact absurd here other
      · exact hf
    · rename_i higher
      have apart : first.path.components ≠ p.components :=
        Path.ne_of_order_lt (Std.OrientedCmp.lt_of_gt higher)
      have skip : (first :: rest).find? (fun g => g.path.same p) =
          rest.find? fun g => g.path.same p :=
        List.find?_cons_of_neg (mt Path.same_iff.mp apart)
      rw [skip, List.mem_cons, ih ascending, List.mem_cons]
      constructor
      · rintro (rfl | ⟨hf, other⟩ | new)
        · exact .inl ⟨.inl rfl, apart⟩
        · exact .inl ⟨.inr hf, other⟩
        · exact .inr new
      · rintro (⟨rfl | hf, other⟩ | new)
        · exact .inl rfl
        · exact .inr (.inl ⟨hf, other⟩)
        · exact .inr (.inr new)

end Selected

namespace Selection

/-- What was found is there, each path in one of the spellings in which it was found, with a mark
for each side that found it; and nothing else is there. -/
structure Records (t : FileTree) (cwd : Location) (s : Selection)
    (found : TagKind → Path × ByteArray → Prop) : Prop where
  source : ∀ kind file, found kind file → t.Holds cwd file
  spelled : ∀ f ∈ s.files, ∃ kind, found kind f.file
  complete : ∀ kind file, found kind file →
    ∃ f ∈ s.files, f.path.components = file.1.components
  marks : ∀ f ∈ s.files, ∀ kind, f.has kind = true ↔
    ∃ file, found kind file ∧ file.1.components = f.path.components

variable {t : FileTree} {cwd : Location} {s s' : Selection}
  {found : TagKind → Path × ByteArray → Prop}

theorem Records.congr (h : Records t cwd s found) {found' : TagKind → Path × ByteArray → Prop}
    (same : ∀ kind file, found kind file ↔ found' kind file) : Records t cwd s found' := by
  have eq : found = found' := funext fun kind => funext fun file => propext (same kind file)
  exact eq ▸ h

theorem Records.holds (h : Records t cwd s found) {f : Selected} (hf : f ∈ s.files) :
    t.Holds cwd f.file := by
  obtain ⟨kind, known⟩ := h.spelled f hf
  exact h.source kind _ known

theorem Records.marked_at (h : Records t cwd s found) (p : Path) (bytes : ByteArray) :
    ∃ old : Selected, old.path.components = p.components ∧
      old = (s.files.find? fun g => g.path.same p).getD (.unmarked p bytes) ∧
      (old ∈ s.files ∨ old = .unmarked p bytes) ∧
      ∀ k, old.has k = true ↔ ∃ file, found k file ∧ file.1.components = p.components := by
  cases search : s.files.find? fun g => g.path.same p with
  | some old =>
    have member := List.mem_of_find?_eq_some search
    have here : old.path.components = p.components :=
      Path.same_iff.mp (by simpa using List.find?_some search)
    refine ⟨old, here, rfl, .inl member, ?_⟩
    intro k
    rw [h.marks old member k, here]
  | none =>
    refine ⟨.unmarked p bytes, rfl, rfl, .inr rfl, ?_⟩
    intro k
    refine iff_of_false (Selected.has_unmarked p bytes k) ?_
    rintro ⟨file, known, same⟩
    obtain ⟨f, hf, here⟩ := h.complete k file known
    exact List.find?_eq_none.mp search f hf (Path.same_iff.mpr (here.trans same))

theorem Records.mark (h : Records t cwd s found) (kind : TagKind) {file : Path × ByteArray}
    (there : t.Holds cwd file) :
    Records t cwd (s.mark kind file) fun k other => found k other ∨ k = kind ∧ other = file := by
  obtain ⟨p, bytes⟩ := file
  obtain ⟨old, here, chosen, origin, marks⟩ := h.marked_at p bytes
  have members : ∀ f, f ∈ (s.mark kind (p, bytes)).files ↔
      f ∈ s.files ∧ f.path.components ≠ p.components ∨ f = old.mark kind := by
    intro f
    rw [chosen]
    exact Selected.mem_markIn_iff s.ascending
  have pathNew : (old.mark kind).path.components = p.components := by
    rw [Selected.path_mark, here]
  refine ⟨?_, ?_, ?_, ?_⟩
  · rintro k other (known | ⟨_, rfl⟩)
    · exact h.source k other known
    · exact there
  · intro f hf
    rcases (members f).mp hf with ⟨hf, _⟩ | rfl
    · obtain ⟨k, known⟩ := h.spelled f hf
      exact ⟨k, .inl known⟩
    · rw [Selected.file_mark]
      rcases origin with member | rfl
      · obtain ⟨k, known⟩ := h.spelled old member
        exact ⟨k, .inl known⟩
      · exact ⟨kind, .inr ⟨rfl, rfl⟩⟩
  · rintro k other (known | ⟨_, rfl⟩)
    · by_cases same : other.1.components = p.components
      · exact ⟨_, (members _).mpr (.inr rfl), pathNew.trans same.symm⟩
      · obtain ⟨f, hf, at_f⟩ := h.complete k other known
        exact ⟨f, (members f).mpr (.inl ⟨hf, at_f ▸ same⟩), at_f⟩
    · exact ⟨_, (members _).mpr (.inr rfl), pathNew⟩
  · intro f hf k
    rcases (members f).mp hf with ⟨hf, apart⟩ | rfl
    · rw [h.marks f hf k]
      refine exists_congr fun other => and_congr_left fun same => ?_
      refine (or_iff_left ?_).symm
      rintro ⟨_, rfl⟩
      exact apart same.symm
    · rw [Selected.has_mark, marks, pathNew]
      simp only [or_and_right, exists_or, and_assoc, exists_eq_left, and_true, exists_and_left]

theorem records_empty (t : FileTree) (cwd : Location) : Records t cwd .empty fun _ _ => False :=
  ⟨fun _ _ h => h.elim, by simp [empty], fun _ _ h => h.elim, by simp [empty]⟩

def ofFinds (finds : List (TagKind × Path × ByteArray)) : Selection :=
  finds.foldl (fun s find => s.mark find.1 find.2) .empty

theorem Records.run {finds : List (TagKind × Path × ByteArray)} (h : Records t cwd s found)
    (there : ∀ find ∈ finds, t.Holds cwd find.2) :
    Records t cwd (finds.foldl (fun s find => s.mark find.1 find.2) s) fun kind file =>
      found kind file ∨ (kind, file) ∈ finds := by
  induction finds generalizing s found with
  | nil => simpa using h
  | cons find finds ih =>
    obtain ⟨kind, file⟩ := find
    have step := h.mark kind (there _ List.mem_cons_self)
    have rest := ih step fun find hf => there find (List.mem_cons_of_mem _ hf)
    simpa only [List.foldl_cons, List.mem_cons, Prod.mk.injEq, or_assoc] using rest

theorem records_ofFinds {finds : List (TagKind × Path × ByteArray)}
    (there : ∀ find ∈ finds, t.Holds cwd find.2) :
    Records t cwd (ofFinds finds) fun kind file => (kind, file) ∈ finds := by
  simpa [ofFinds] using (records_empty t cwd).run there

theorem unspelled_of_records (one : Records t cwd s found) (two : Records t cwd s' found) :
    s.files.map Selected.unspelled = s'.files.map Selected.unspelled := by
  have ascending : ∀ s : Selection, (s.files.map Selected.unspelled).Pairwise fun a b =>
      Path.orderComponents a.1 b.1 = .lt := fun s => List.pairwise_map.mpr s.ascending
  have inside : ∀ {s s' : Selection}, Records t cwd s found → Records t cwd s' found →
      ∀ a ∈ s.files.map Selected.unspelled, a ∈ s'.files.map Selected.unspelled := by
    intro s s' one two a member
    obtain ⟨f, hf, rfl⟩ := List.mem_map.mp member
    obtain ⟨kind, known⟩ := one.spelled f hf
    obtain ⟨g, hg, same⟩ := two.complete kind _ known
    refine List.mem_map.mpr ⟨g, hg, Selected.unspelled_eq same ?_ ?_⟩
    · exact (two.holds hg).unique (one.holds hf) same
    · intro k
      rw [one.marks f hf k, two.marks g hg k, same]
      rfl
  exact eq_of_ascending (ascending s) (ascending s') fun a =>
    ⟨inside one two a, inside two one a⟩

end Selection

end RouteTags
