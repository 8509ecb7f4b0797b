import RouteTags.Coverage.CallSites
import RouteTags.Proofs.Text.Search

/-! Which call sites are covered. The pass over the lines keeps the nearest tag and whether it is
taken, and that is all the past there is: a tag covers the first call site below it that is in
reach, if no other tag comes between. So each covered call site has a tag of its own. -/
namespace RouteTags.Coverage

section

variable (markers : List String) (lookback : Nat) (lines : List (List Char))

def CallsAt (n : Nat) : Prop :=
  ∃ line, lines[n]? = some line ∧ ∃ marker ∈ markers, marker.toList <:+: line

def TagAt (n : Nat) : Prop :=
  ∃ line, lines[n]? = some line ∧ Tag.marker <:+: line ∧ TagKind.frontend.literal.toList <:+: line

structure Nearest (tag site : Nat) : Prop where
  above : tag < site
  near : site ≤ tag + lookback
  tagged : TagAt lines tag
  last : ∀ n, tag < n → n < site → ¬ TagAt lines n

/-- The nearest tag covers the call site on line `site`: there is none between them. -/
structure Covers (tag site : Nat) : Prop extends Nearest lookback lines tag site where
  first : ∀ n, tag < n → n < site → ¬ CallsAt markers lines n

def Bare (site : Nat) : Prop :=
  CallsAt markers lines site ∧ ¬ ∃ tag, Covers markers lookback lines tag site

/-- What is kept when the lines before line `n` have been read: the nearest tag, and whether a call
site below it was in reach. -/
def Keeps (n : Nat) : Option LatestTag → Prop
  | none => ∀ k < n, ¬ TagAt lines k
  | some tag => tag.line < n ∧ TagAt lines tag.line ∧
      (∀ k, tag.line < k → k < n → ¬ TagAt lines k) ∧
      (tag.used = true ↔
        ∃ k, tag.line < k ∧ k < n ∧ k ≤ tag.line + lookback ∧ CallsAt markers lines k)

end

theorem mentionedIn_iff {kind : TagKind} {line : List Char} : Tag.mentionedIn kind line = true ↔
    Tag.marker <:+: line ∧ kind.literal.toList <:+: line := by
  rw [Tag.mentionedIn, Bool.and_eq_true, Text.occursIn_iff_infix, Text.occursIn_iff_infix]

section

variable {markers : List String} {lookback n : Nat} {lines : List (List Char)}
  {latest : Option LatestTag} {line : List Char}

theorem callsAt_iff (there : lines[n]? = some line) :
    CallsAt markers lines n ↔ isCallSite (markers.map String.toList) line = true := by
  simp [CallsAt, there, isCallSite, Text.occursIn_iff_infix]

theorem tagAt_iff (there : lines[n]? = some line) :
    TagAt lines n ↔ Tag.mentionedIn .frontend line = true := by
  simp [TagAt, there, mentionedIn_iff]

theorem Covers.unique {tag site other : Nat} (covers : Covers markers lookback lines tag site)
    (covers' : Covers markers lookback lines tag other) (calls : CallsAt markers lines site)
    (calls' : CallsAt markers lines other) : site = other := by
  rcases Nat.lt_trichotomy site other with lower | same | higher
  · exact absurd calls (covers'.first site covers.above lower)
  · exact same
  · exact absurd calls' (covers.first other covers'.above higher)

theorem Covers.wider {tag site wider : Nat} (covers : Covers markers lookback lines tag site)
    (more : lookback ≤ wider) : Covers markers wider lines tag site where
  above := covers.above
  near := Nat.le_trans covers.near (Nat.add_le_add_left more tag)
  tagged := covers.tagged
  last := covers.last
  first := covers.first

theorem Keeps.covers_iff (keeps : Keeps markers lookback lines n latest) :
    latest.any (·.covers lookback n) = true ↔ ∃ tag, Covers markers lookback lines tag n := by
  cases latest with
  | none =>
    simp only [Option.any_none, Bool.false_eq_true, false_iff]
    rintro ⟨tag, covers⟩
    exact keeps tag covers.above covers.tagged
  | some latest =>
    obtain ⟨above, tagged, last, taken⟩ := keeps
    simp only [Option.any_some, LatestTag.covers, Bool.and_eq_true, Bool.not_eq_true',
      decide_eq_true_eq]
    constructor
    · rintro ⟨free, near⟩
      refine ⟨latest.line, ⟨above, near, tagged, last⟩, fun k below before called => ?_⟩
      have used := taken.mpr ⟨k, below, before, by omega, called⟩
      rw [free] at used
      cases used
    · rintro ⟨tag, covers⟩
      have same : tag = latest.line := by
        rcases Nat.lt_trichotomy tag latest.line with lower | same | higher
        · exact absurd tagged (covers.last _ lower above)
        · exact same
        · exact absurd covers.tagged (last tag higher covers.above)
      subst same
      refine ⟨Bool.eq_false_iff.mpr fun used => ?_, covers.near⟩
      obtain ⟨k, below, before, -, called⟩ := taken.mp used
      exact covers.first k below before called

theorem Keeps.step (keeps : Keeps markers lookback lines n latest)
    (there : lines[n]? = some line) :
    Keeps markers lookback lines (n + 1)
      (if Tag.mentionedIn .frontend line then some ⟨n, false⟩
        else if isCallSite (markers.map String.toList) line &&
            latest.any (·.covers lookback n) then
          latest.map ({ · with used := true })
        else latest) := by
  by_cases tagged : Tag.mentionedIn .frontend line = true
  · rw [if_pos tagged]
    refine ⟨Nat.lt_succ_self n, (tagAt_iff there).mpr tagged, ?_, ?_⟩
    · exact fun k below before => absurd below (Nat.not_lt_of_le (Nat.lt_succ_iff.mp before))
    · simp only [Bool.false_eq_true, false_iff, not_exists]
      intro k h
      omega
  · rw [if_neg tagged]
    have plain : ¬ TagAt lines n := fun h => tagged ((tagAt_iff there).mp h)
    have split : ∀ k, k < n + 1 ↔ k < n ∨ k = n := fun k => Nat.lt_succ_iff_lt_or_eq
    cases latest with
    | none =>
      simp only [Option.any_none, Bool.and_false, Bool.false_eq_true, if_false]
      intro k before
      rcases (split k).mp before with before | rfl
      · exact keeps k before
      · exact plain
    | some latest =>
      obtain ⟨above, tagAt, last, taken⟩ := keeps
      have last' : ∀ k, latest.line < k → k < n + 1 → ¬ TagAt lines k := by
        intro k below before
        rcases (split k).mp before with before | rfl
        · exact last k below before
        · exact plain
      by_cases taking : (isCallSite (markers.map String.toList) line &&
          (some latest).any (·.covers lookback n)) = true
      · rw [if_pos taking]
        simp only [Option.any_some, LatestTag.covers, Bool.and_eq_true, decide_eq_true_eq] at taking
        refine ⟨Nat.lt_succ_of_lt above, tagAt, last', ?_⟩
        simp only [true_iff]
        exact ⟨n, above, Nat.lt_succ_self n, taking.2.2, (callsAt_iff there).mpr taking.1⟩
      · rw [if_neg taking]
        refine ⟨Nat.lt_succ_of_lt above, tagAt, last', ?_⟩
        rw [taken]
        constructor
        · rintro ⟨k, below, before, near, called⟩
          exact ⟨k, below, Nat.lt_succ_of_lt before, near, called⟩
        · rintro ⟨k, below, before, near, called⟩
          rcases (split k).mp before with before | rfl
          · exact ⟨k, below, before, near, called⟩
          · -- In reach and not covered: the tag was taken before.
            have used : latest.used = true := by
              have called' := (callsAt_iff there).mp called
              simpa [LatestTag.covers, called', near] using taking
            exact taken.mp used

open Classical in
theorem Keeps.untaggedFrom_cons (keeps : Keeps markers lookback lines n latest)
    (there : lines[n]? = some line) : ∃ latest', Keeps markers lookback lines (n + 1) latest' ∧
      ∀ rest, untaggedFrom (markers.map String.toList) lookback n latest (line :: rest) =
        (if Bare markers lookback lines n then [n] else []) ++
          untaggedFrom (markers.map String.toList) lookback (n + 1) latest' rest := by
  refine ⟨_, keeps.step there, fun rest => ?_⟩
  have reports : Bare markers lookback lines n ↔
      (isCallSite (markers.map String.toList) line && !latest.any (·.covers lookback n)) = true := by
    rw [Bare, callsAt_iff there, ← keeps.covers_iff, Bool.and_eq_true, Bool.not_eq_true',
      Bool.not_eq_true]
  simp only [untaggedFrom, reports]
  split <;> rfl

theorem getElem?_of_drop {rest : List (List Char)} (behind : lines.drop n = line :: rest) :
    lines[n]? = some line ∧ lines.drop (n + 1) = rest := by
  constructor
  · have first := congrArg List.head? behind
    rwa [List.head?_drop, List.head?_cons] at first
  · rw [← List.drop_drop, behind, List.drop_one, List.tail_cons]

theorem mem_untaggedFrom_iff {rest : List (List Char)} (behind : lines.drop n = rest)
    (keeps : Keeps markers lookback lines n latest) (site : Nat) :
    site ∈ untaggedFrom (markers.map String.toList) lookback n latest rest ↔
      n ≤ site ∧ Bare markers lookback lines site := by
  classical
  induction rest generalizing n latest with
  | nil =>
    have short := List.drop_eq_nil_iff.mp behind
    simp only [untaggedFrom, List.not_mem_nil, false_iff, not_and]
    rintro late ⟨⟨line, there, -⟩, -⟩
    have inside := (List.getElem?_eq_some_iff.mp there).1
    omega
  | cons line rest ih =>
    obtain ⟨there, behind'⟩ := getElem?_of_drop behind
    obtain ⟨latest', keeps', cons⟩ := keeps.untaggedFrom_cons there
    have here : site ∈ (if Bare markers lookback lines n then [n] else []) ↔
        site = n ∧ Bare markers lookback lines site := by
      split
      · rename_i bare
        rw [List.mem_singleton]
        exact ⟨fun same => ⟨same, same ▸ bare⟩, And.left⟩
      · rename_i other
        simp only [List.not_mem_nil, false_iff, not_and]
        rintro rfl
        exact other
    rw [cons, List.mem_append, here, ih behind' keeps', ← or_and_right]
    apply and_congr_left'
    omega

end

theorem untaggedFrom_sublist (markers : List (List Char)) (lookback n : Nat)
    (latest : Option LatestTag) (rest : List (List Char)) :
    (untaggedFrom markers lookback n latest rest).Sublist (List.range' n rest.length) := by
  induction rest generalizing n latest with
  | nil => exact List.Sublist.refl _
  | cons line rest ih =>
    rw [List.length_cons, List.range'_succ]
    simp only [untaggedFrom]
    split
    · exact (ih (n + 1) _).cons_cons n
    · exact (ih (n + 1) _).cons n

section

variable (markers : List String) (lookback : Nat) (text : String)

theorem untaggedLines_ascending : (untaggedLines markers lookback text).Pairwise (· < ·) :=
  (List.pairwise_lt_range' ..).sublist (untaggedFrom_sublist _ _ _ _ _)

theorem mem_untaggedLines_iff (site : Nat) : site ∈ untaggedLines markers lookback text ↔
    Bare markers lookback (Text.lines text.toList) site := by
  have start : Keeps markers lookback (Text.lines text.toList) 0 none :=
    fun k before => absurd before (Nat.not_lt_zero k)
  rw [untaggedLines, mem_untaggedFrom_iff List.drop_zero start]
  exact and_iff_right (Nat.zero_le site)

end

end RouteTags.Coverage
