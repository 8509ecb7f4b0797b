import RouteTags.Proofs.Scan.Marks
import Mathlib.Data.List.Induction

namespace RouteTags

def isText (file : Path × ByteArray) : Bool := (String.fromUTF8? file.2).isSome

def mentionsIn (kind : TagKind) (file : Path × ByteArray) : List (Mention kind) :=
  match String.fromUTF8? file.2 with
  | some text => Tag.mentions kind file.1 text
  | none => []

def Mention.unspelled {kind : TagKind} (m : Mention kind) :
    RouteKey × List Component × List Component × Option UInt32 :=
  (m.key, m.file.components, m.locator.path.components, m.locator.line)

def Scan.mentions (scan : Scan) : (kind : TagKind) → List (Mention kind)
  | .backend => scan.backend
  | .frontend => scan.frontend

structure Scan.Same (scan other : Scan) : Prop where
  mentions : ∀ kind, (scan.mentions kind).map Mention.unspelled =
    (other.mentions kind).map Mention.unspelled
  scanned : scan.scanned = other.scanned
  skipped : scan.skipped = other.skipped

def Selected.gives (kind : TagKind) (f : Selected) : List (Mention kind) :=
  if f.has kind then mentionsIn kind f.file else []

theorem mentions_of_file {kind : TagKind} {file : Path × ByteArray} {m : Mention kind}
    (member : m ∈ mentionsIn kind file) : m.file = file.1 := by
  unfold mentionsIn at member
  split at member
  · obtain ⟨found, _, rfl⟩ := List.mem_map.mp member
    rfl
  · cases member

theorem Selected.mem_gives {kind : TagKind} {f : Selected} {m : Mention kind}
    (member : m ∈ f.gives kind) : m.file = f.path := by
  unfold gives at member
  split at member
  · exact mentions_of_file member
  · cases member

theorem unspelled_mentionsIn {kind : TagKind} {file other : Path × ByteArray}
    (same : file.1.components = other.1.components) (bytes : file.2 = other.2) :
    (mentionsIn kind file).map Mention.unspelled =
      (mentionsIn kind other).map Mention.unspelled := by
  unfold mentionsIn
  rw [bytes]
  split
  · simp only [Tag.mentions, List.map_map]
    refine List.map_congr_left fun found _ => ?_
    simp only [Function.comp_apply, Mention.onLine, Mention.unspelled, same]
  · rfl

theorem Selected.unspelled_gives {kind : TagKind} {f g : Selected}
    (same : f.unspelled = g.unspelled) :
    (f.gives kind).map Mention.unspelled = (g.gives kind).map Mention.unspelled := by
  simp only [unspelled, Prod.mk.injEq] at same
  obtain ⟨path, bytes, backend, frontend⟩ := same
  have has : f.has kind = g.has kind := by cases kind <;> assumption
  rw [gives, gives, has]
  split
  · exact unspelled_mentionsIn path bytes
  · rfl

namespace Scan

theorem add_spec (scan : Scan) (f : Selected) :
    (∀ kind, (scan.add f).mentions kind = scan.mentions kind ++ f.gives kind) ∧
    (scan.add f).scanned = scan.scanned + (if isText f.file then 1 else 0) ∧
    (scan.add f).skipped = scan.skipped + (if isText f.file then 0 else 1) := by
  have bytes : f.file.2 = f.bytes := rfl
  cases read : String.fromUTF8? f.bytes with
  | none =>
    have nothing : ∀ kind, f.gives kind = [] := by
      intro kind
      simp [Selected.gives, mentionsIn, bytes, read]
    refine ⟨?_, ?_, ?_⟩
    · intro kind
      rw [nothing, List.append_nil]
      cases kind <;> simp only [add, read, mentions]
    · simp [add, read, isText, bytes]
    · simp [add, read, isText, bytes]
  | some text =>
    refine ⟨?_, ?_, ?_⟩
    · intro kind
      cases kind <;>
        simp [add, read, mentions, Selected.gives, Selected.has, mentionsIn, Tag.extract,
          Selected.file]
    · simp [add, read, isText, bytes]
    · simp [add, read, isText, bytes]

theorem ofFiles_spec (files : List Selected) :
    (∀ kind, (ofFiles files).mentions kind = files.flatMap (Selected.gives kind)) ∧
    (ofFiles files).scanned = files.countP (fun f => isText f.file) ∧
    (ofFiles files).skipped = files.countP (fun f => !isText f.file) := by
  induction files using List.reverseRecOn with
  | nil =>
    refine ⟨?_, rfl, rfl⟩
    intro kind
    cases kind <;> rfl
  | append_singleton files f ih =>
    obtain ⟨mentioned, scanned, skipped⟩ := ih
    obtain ⟨more, one, other⟩ := add_spec (ofFiles files) f
    have step : ofFiles (files ++ [f]) = (ofFiles files).add f := by
      rw [ofFiles, List.foldl_append]
      rfl
    rw [step]
    refine ⟨?_, ?_, ?_⟩
    · intro kind
      rw [more, mentioned, List.flatMap_append, List.flatMap_singleton]
    · rw [one, scanned, List.countP_append, List.countP_singleton]
    · rw [other, skipped, List.countP_append, List.countP_singleton]
      cases isText f.file <;> rfl

theorem scanned_add_skipped (files : List Selected) :
    (ofFiles files).scanned + (ofFiles files).skipped = files.length := by
  obtain ⟨_, scanned, skipped⟩ := ofFiles_spec files
  rw [scanned, skipped]
  simpa using (List.length_eq_countP_add_countP (fun f => isText (Selected.file f)) (l := files)).symm

theorem ofFiles_same {files others : List Selected}
    (same : files.map Selected.unspelled = others.map Selected.unspelled) :
    (ofFiles files).Same (ofFiles others) := by
  obtain ⟨mentioned, scanned, skipped⟩ := ofFiles_spec files
  obtain ⟨mentioned', scanned', skipped'⟩ := ofFiles_spec others
  have counted : ∀ p : ByteArray → Bool, files.countP (fun f => p f.bytes) =
      others.countP fun f => p f.bytes := by
    intro p
    have whole := congrArg (List.countP fun a => p a.2.1) same
    rwa [List.countP_map, List.countP_map] at whole
  refine ⟨?_, ?_, ?_⟩
  · intro kind
    rw [mentioned, mentioned']
    clear mentioned mentioned' scanned scanned' skipped skipped' counted
    induction files generalizing others with
    | nil => rw [List.map_eq_nil_iff.mp same.symm]
    | cons f files ih =>
      obtain ⟨g, rest, rfl, here, later⟩ := List.map_eq_cons_iff.mp same.symm
      rw [List.flatMap_cons, List.flatMap_cons, List.map_append, List.map_append,
        Selected.unspelled_gives here, ih later.symm]
  · rw [scanned, scanned']
    exact counted fun bytes => (String.fromUTF8? bytes).isSome
  · rw [skipped, skipped']
    exact counted fun bytes => !(String.fromUTF8? bytes).isSome

end Scan

def unspelled (file : Path × ByteArray) : List Component × ByteArray := (file.1.components, file.2)

/-- The files that are wanted, each once, in path order. A path has one of the spellings in which it
is wanted or any other. -/
structure Listing (files : List (Path × ByteArray)) (wanted : Path × ByteArray → Prop) :
    Prop where
  ascending : files.Pairwise fun a b => a.1.order b.1 = .lt
  complete : ∀ a, a ∈ files.map unspelled ↔ ∃ file, wanted file ∧ unspelled file = a

namespace Listing

variable {files others : List (Path × ByteArray)} {wanted : Path × ByteArray → Prop}

theorem exists_wanted (listing : Listing files wanted) {file : Path × ByteArray}
    (member : file ∈ files) : ∃ other, wanted other ∧ unspelled other = unspelled file :=
  (listing.complete _).mp (List.mem_map_of_mem member)

/-- What is wanted decides what is listed, but for spelling. -/
theorem unique (one : Listing files wanted) (two : Listing others wanted) :
    files.map unspelled = others.map unspelled := by
  have ascending : ∀ {files}, Listing files wanted → (files.map unspelled).Pairwise fun a b =>
      Path.orderComponents a.1 b.1 = .lt := fun listing => List.pairwise_map.mpr listing.ascending
  exact eq_of_ascending (ascending one) (ascending two) fun a =>
    (one.complete a).trans (two.complete a).symm

theorem mem_iff (listing : Listing files wanted)
    (alike : ∀ file ∈ files, ∀ other, wanted other → unspelled other = unspelled file →
      other = file) {file : Path × ByteArray} : file ∈ files ↔ wanted file := by
  constructor
  · intro member
    obtain ⟨other, known, same⟩ := listing.exists_wanted member
    exact alike file member other known same ▸ known
  · intro known
    obtain ⟨listed, member, same⟩ := List.mem_map.mp ((listing.complete _).mpr ⟨file, known, rfl⟩)
    exact alike listed member file known same.symm ▸ member

end Listing

theorem filter_flatMap {α β : Type} {make : α → List β} {p : α → Bool} {q : β → Bool}
    (same : ∀ x, ∀ y ∈ make x, q y = p x) (xs : List α) :
    (xs.flatMap make).filter q = (xs.filter p).flatMap make := by
  induction xs with
  | nil => rfl
  | cons x xs ih =>
    rw [List.flatMap_cons, List.filter_append, ih, List.filter_cons]
    split
    · rename_i kept
      have all : (make x).filter q = make x :=
        List.filter_eq_self.mpr fun y member => (same x y member).trans kept
      rw [all, List.flatMap_cons]
    · rename_i left
      have none : (make x).filter q = [] :=
        List.filter_eq_nil_iff.mpr fun y member => same x y member ▸ left
      rw [none, List.nil_append]

theorem filter_mentions {kind : TagKind} (p : Path → Bool) (files : List (Path × ByteArray)) :
    (files.flatMap (mentionsIn kind)).filter (fun m => p m.file) =
      (files.filter fun file => p file.1).flatMap (mentionsIn kind) := by
  refine filter_flatMap ?_ files
  intro file m member
  rw [mentions_of_file member]

namespace Selection

variable {t : FileTree} {cwd : Location} {s : Selection}
  {found : TagKind → Path × ByteArray → Prop}

theorem listing_of_filter (s : Selection) (p : Selected → Bool)
    {wanted : Path × ByteArray → Prop}
    (meets : ∀ a, (∃ f ∈ s.files, p f = true ∧ unspelled f.file = a) ↔
      ∃ file, wanted file ∧ unspelled file = a) :
    Listing ((s.files.filter p).map Selected.file) wanted := by
  refine ⟨?_, ?_⟩
  · rw [List.pairwise_map]
    exact s.ascending.filter p
  · intro a
    rw [← meets, List.map_map, List.mem_map]
    simp only [List.mem_filter, and_assoc, Function.comp_apply]

theorem flatMap_gives (kind : TagKind) (files : List Selected) :
    files.flatMap (Selected.gives kind) =
      ((files.filter fun f => f.has kind && isText f.file).map Selected.file).flatMap
        (mentionsIn kind) := by
  induction files with
  | nil => rfl
  | cons f files ih =>
    rw [List.flatMap_cons, ih, List.filter_cons]
    split
    · rename_i both
      obtain ⟨has, _⟩ := (Bool.and_eq_true _ _).mp both
      rw [List.map_cons, List.flatMap_cons, Selected.gives, if_pos has]
    · rename_i missing
      have nothing : f.gives kind = [] := by
        unfold Selected.gives
        split
        · rename_i has
          have unread : String.fromUTF8? f.file.2 = none := by simpa [has, isText] using missing
          rw [mentionsIn, unread]
        · rfl
      rw [nothing, List.nil_append]

theorem Records.unspelled_file (h : Records t cwd s found) {f : Selected} (hf : f ∈ s.files)
    {kind : TagKind} {file : Path × ByteArray} (known : found kind file)
    (same : file.1.components = f.path.components) : unspelled f.file = unspelled file :=
  Prod.ext same.symm ((h.holds hf).unique (h.source kind file known) same.symm)

theorem Records.listing_kind (h : Records t cwd s found) (kind : TagKind) :
    Listing ((s.files.filter fun f => f.has kind && isText f.file).map Selected.file)
      fun file => found kind file ∧ isText file = true := by
  have text : ∀ {a b : Path × ByteArray}, unspelled a = unspelled b → isText a = isText b :=
    fun same => congrArg (fun bytes => (String.fromUTF8? bytes).isSome) (Prod.mk.inj same).2
  apply listing_of_filter
  intro a
  constructor
  · rintro ⟨f, hf, both, rfl⟩
    obtain ⟨has, reads⟩ := (Bool.and_eq_true _ _).mp both
    obtain ⟨file, known, same⟩ := (h.marks f hf kind).mp has
    have whole := h.unspelled_file hf known same
    exact ⟨file, ⟨known, (text whole).symm.trans reads⟩, whole.symm⟩
  · rintro ⟨file, ⟨known, reads⟩, rfl⟩
    obtain ⟨f, hf, same⟩ := h.complete kind file known
    have whole := h.unspelled_file hf known same.symm
    exact ⟨f, hf, (Bool.and_eq_true _ _).mpr
      ⟨(h.marks f hf kind).mpr ⟨file, known, same.symm⟩, (text whole).trans reads⟩, whole⟩

theorem Records.listing (h : Records t cwd s found) :
    Listing (s.files.map Selected.file) fun file => ∃ kind, found kind file := by
  have meets : ∀ a, (∃ f ∈ s.files, true = true ∧ unspelled f.file = a) ↔
      ∃ file, (∃ kind, found kind file) ∧ unspelled file = a := by
    intro a
    constructor
    · rintro ⟨f, hf, -, rfl⟩
      exact ⟨f.file, h.spelled f hf, rfl⟩
    · rintro ⟨file, ⟨kind, known⟩, rfl⟩
      obtain ⟨f, hf, same⟩ := h.complete kind file known
      exact ⟨f, hf, rfl, h.unspelled_file hf known same.symm⟩
  simpa using s.listing_of_filter (fun _ => true) meets

end Selection

end RouteTags
