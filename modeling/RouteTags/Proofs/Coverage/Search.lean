import RouteTags.Proofs.Coverage.CallSites
import RouteTags.Proofs.Tag.Reading
import RouteTags.Proofs.Text.Trim
import Mathlib.Data.Set.Function
import Mathlib.Tactic.Choose

/-! Call sites by search. A search goes back from each call site to the nearest tag and remembers all
tags that are taken. What it remembers of a tag is whether a call site below was in reach, which the
pass over the lines keeps of the nearest tag alone; so both report the same. -/
namespace RouteTags.Coverage

section

variable (markers : List String) (lookback : Nat) (lines : List (List Char))

def nearestTag? (site : Nat) : Option Nat :=
  (((List.range' 1 lookback).takeWhile (· ≤ site)).map (site - ·)).find? fun n =>
    lines[n]?.any fun line => Tag.mentionedIn .frontend (Text.trim line)

/-- The call sites without a tag, or whose nearest tag was taken by one before. -/
def searchFrom (taken : List Nat) : List Nat → List Nat
  | [] => []
  | site :: later =>
    if lines[site]?.any (isCallSite (markers.map String.toList)) then
      match nearestTag? lookback lines site with
      | some tag =>
        if tag ∈ taken then site :: searchFrom taken later else searchFrom (tag :: taken) later
      | none => site :: searchFrom taken later
    else searchFrom taken later

end

theorem mentionedIn_trim (kind : TagKind) (line : List Char) :
    Tag.mentionedIn kind (Text.trim line) = Tag.mentionedIn kind line := by
  have solid : ∀ {part : List Char}, part.all (fun c => !Text.isBlank c) = true →
      ∀ c ∈ part, Text.isBlank c = false := by
    intro part all
    simpa using all
  rw [Bool.eq_iff_iff, mentionedIn_iff, mentionedIn_iff,
    Text.infix_trim_iff (by decide) (solid (by decide)),
    Text.infix_trim_iff (Tag.literal_ne_nil kind) (solid (by cases kind <;> decide))]

section

variable {markers : List String} {lookback n : Nat} {lines : List (List Char)} {taken : List Nat}
  {tag other site : Nat}

def Takes (markers : List String) (lookback : Nat) (lines : List (List Char)) (n : Nat)
    (taken : List Nat) : Prop :=
  ∀ tag, tag ∈ taken ↔ ∃ site < n, CallsAt markers lines site ∧ Nearest lookback lines tag site

theorem takeWhile_range' (limit start count : Nat) :
    (List.range' start count).takeWhile (· ≤ limit) =
      List.range' start (min count (limit + 1 - start)) := by
  induction count generalizing start with
  | zero => simp
  | succ count ih =>
    rw [List.range'_succ, List.takeWhile_cons, ih]
    by_cases within : start ≤ limit
    · have more : min (count + 1) (limit + 1 - start) =
          min count (limit + 1 - (start + 1)) + 1 := by omega
      rw [if_pos (decide_eq_true within), more, List.range'_succ]
    · have none : min (count + 1) (limit + 1 - start) = 0 := by omega
      rw [if_neg (by simpa using within), none, List.range'_zero]

theorem any_mentionedIn_iff :
    (lines[n]?.any fun line => Tag.mentionedIn .frontend (Text.trim line)) = true ↔
      TagAt lines n := by
  cases there : lines[n]? with
  | none => simp [TagAt, there]
  | some line => rw [tagAt_iff there, Option.any_some, mentionedIn_trim]

theorem any_isCallSite_iff :
    lines[n]?.any (isCallSite (markers.map String.toList)) = true ↔ CallsAt markers lines n := by
  cases there : lines[n]? with
  | none => simp [CallsAt, there]
  | some line => rw [callsAt_iff there, Option.any_some]

theorem nearestTag?_eq_some_iff :
    nearestTag? lookback lines site = some tag ↔ Nearest lookback lines tag site := by
  rw [nearestTag?, takeWhile_range', List.find?_map, Option.map_eq_some_iff]
  simp only [List.find?_range'_eq_some, Function.comp_apply, any_mentionedIn_iff, List.mem_range'_1,
    Bool.not_eq_true', Bool.eq_false_iff, ne_eq]
  constructor
  · rintro ⟨back, ⟨tagged, ⟨low, high⟩, last⟩, rfl⟩
    refine ⟨by omega, by omega, tagged, ?_⟩
    intro n below before tagAt
    have between := last (site - n) (by omega) (by omega)
    rw [Nat.sub_sub_self (Nat.le_of_lt before)] at between
    exact between tagAt
  · rintro ⟨above, near, tagged, last⟩
    have whole : site - (site - tag) = tag := Nat.sub_sub_self (Nat.le_of_lt above)
    refine ⟨site - tag, ⟨by rwa [whole], by omega, ?_⟩, whole⟩
    intro back low before
    exact last (site - back) (by omega) (by omega)

theorem Nearest.unique (nearest : Nearest lookback lines tag site)
    (nearest' : Nearest lookback lines other site) : tag = other :=
  Option.some.inj ((nearestTag?_eq_some_iff.mpr nearest).symm.trans
    (nearestTag?_eq_some_iff.mpr nearest'))

theorem Takes.next (takes : Takes markers lookback lines n taken) (tag : Nat) :
    (∃ site < n + 1, CallsAt markers lines site ∧ Nearest lookback lines tag site) ↔
      tag ∈ taken ∨ CallsAt markers lines n ∧ Nearest lookback lines tag n := by
  simp only [Nat.lt_succ_iff_lt_or_eq, or_and_right, exists_or, exists_eq_left, takes tag]

theorem Takes.same (takes : Takes markers lookback lines n taken)
    (nothing : ∀ tag, CallsAt markers lines n → Nearest lookback lines tag n → tag ∈ taken) :
    Takes markers lookback lines (n + 1) taken := by
  intro tag
  rw [takes.next]
  exact ⟨.inl, fun h => h.elim id fun ⟨calls, nearest⟩ => nothing tag calls nearest⟩

theorem Takes.cons (takes : Takes markers lookback lines n taken)
    (calls : CallsAt markers lines n) (nearest : Nearest lookback lines tag n) :
    Takes markers lookback lines (n + 1) (tag :: taken) := by
  intro other
  rw [takes.next, List.mem_cons, or_comm]
  apply or_congr_right
  constructor
  · rintro rfl
    exact ⟨calls, nearest⟩
  · rintro ⟨-, nearest'⟩
    exact nearest'.unique nearest

theorem Takes.mem_iff (takes : Takes markers lookback lines n taken)
    (nearest : Nearest lookback lines tag n) :
    tag ∈ taken ↔ ¬ ∃ tag, Covers markers lookback lines tag n := by
  rw [takes]
  constructor
  · rintro ⟨site, before, calls, nearest'⟩ ⟨other, covers⟩
    rw [covers.toNearest.unique nearest] at covers
    exact covers.first site nearest'.above before calls
  · intro bare
    by_contra free
    refine bare ⟨tag, nearest, fun site below before calls => free ⟨site, before, calls, ?_⟩⟩
    have near := nearest.near
    exact ⟨below, by omega, nearest.tagged,
      fun k above under => nearest.last k above (Nat.lt_trans under before)⟩

open Classical in
theorem Takes.searchFrom_cons (takes : Takes markers lookback lines n taken) :
    ∃ taken', Takes markers lookback lines (n + 1) taken' ∧
      ∀ later, searchFrom markers lookback lines taken (n :: later) =
        (if Bare markers lookback lines n then [n] else []) ++
          searchFrom markers lookback lines taken' later := by
  by_cases calls : CallsAt markers lines n
  · cases found : nearestTag? lookback lines n with
    | none =>
      have free : ∀ tag, ¬ Nearest lookback lines tag n := by
        intro tag nearest
        rw [nearestTag?_eq_some_iff.mpr nearest] at found
        cases found
      have bare : Bare markers lookback lines n :=
        ⟨calls, fun ⟨tag, covers⟩ => free tag covers.toNearest⟩
      refine ⟨taken, takes.same fun tag _ nearest => absurd nearest (free tag), fun later => ?_⟩
      rw [searchFrom, if_pos (any_isCallSite_iff.mpr calls), found, if_pos bare]
      rfl
    | some tag =>
      have nearest := nearestTag?_eq_some_iff.mp found
      by_cases member : tag ∈ taken
      · have bare : Bare markers lookback lines n := ⟨calls, (takes.mem_iff nearest).mp member⟩
        refine ⟨taken, takes.same fun other _ nearest' => ?_, fun later => ?_⟩
        · rwa [nearest'.unique nearest]
        · rw [searchFrom, if_pos (any_isCallSite_iff.mpr calls), found, if_pos bare]
          simp only [if_pos member]
          rfl
      · have covered : ¬ Bare markers lookback lines n :=
          fun bare => member ((takes.mem_iff nearest).mpr bare.2)
        refine ⟨tag :: taken, takes.cons calls nearest, fun later => ?_⟩
        rw [searchFrom, if_pos (any_isCallSite_iff.mpr calls), found, if_neg covered]
        simp only [if_neg member]
        rfl
  · have silent : ¬ Bare markers lookback lines n := fun bare => calls bare.1
    refine ⟨taken, takes.same fun _ calls' => absurd calls' calls, fun later => ?_⟩
    rw [searchFrom, if_neg (fun called => calls (any_isCallSite_iff.mp called)), if_neg silent]
    rfl

theorem untaggedFrom_eq_searchFrom {rest : List (List Char)} {latest : Option LatestTag}
    (behind : lines.drop n = rest) (keeps : Keeps markers lookback lines n latest)
    (takes : Takes markers lookback lines n taken) :
    untaggedFrom (markers.map String.toList) lookback n latest rest =
      searchFrom markers lookback lines taken (List.range' n rest.length) := by
  induction rest generalizing n latest taken with
  | nil => rfl
  | cons line rest ih =>
    obtain ⟨there, behind'⟩ := getElem?_of_drop behind
    obtain ⟨latest', keeps', passed⟩ := keeps.untaggedFrom_cons there
    obtain ⟨taken', takes', searched⟩ := takes.searchFrom_cons
    rw [List.length_cons, List.range'_succ, passed, searched, ih behind' keeps' takes']

end

theorem untaggedLines_eq_search (markers : List String) (lookback : Nat) (text : String) :
    untaggedLines markers lookback text = searchFrom markers lookback (Text.lines text.toList) []
      (List.range (Text.lines text.toList).length) := by
  have nothing : ∀ k < 0, ¬ TagAt (Text.lines text.toList) k :=
    fun k before => absurd before (Nat.not_lt_zero k)
  have free : Takes markers lookback (Text.lines text.toList) 0 [] := by
    intro tag
    simp
  rw [untaggedLines, List.range_eq_range']
  exact untaggedFrom_eq_searchFrom List.drop_zero nothing free

/-- Reported are, in order, the call sites that no tag covers, and these are what the search reports.
Each of the others has a tag of its own within the lookback above it, and with a wider lookback no
more are reported. -/
theorem untaggedLines_exact (markers : List String) (lookback : Nat) (text : String) :
    untaggedLines markers lookback text = searchFrom markers lookback (Text.lines text.toList) []
      (List.range (Text.lines text.toList).length) ∧
    (untaggedLines markers lookback text).Pairwise (· < ·) ∧
    (∀ site, site ∈ untaggedLines markers lookback text ↔
      CallsAt markers (Text.lines text.toList) site ∧
        ¬ ∃ tag, Covers markers lookback (Text.lines text.toList) tag site) ∧
    (∃ tagOf : Nat → Nat,
      (∀ site, CallsAt markers (Text.lines text.toList) site →
        site ∉ untaggedLines markers lookback text →
        TagAt (Text.lines text.toList) (tagOf site) ∧ tagOf site < site ∧
          site ≤ tagOf site + lookback) ∧
      Set.InjOn tagOf {site | CallsAt markers (Text.lines text.toList) site ∧
        site ∉ untaggedLines markers lookback text}) ∧
    ∀ wider, lookback ≤ wider → ∀ site ∈ untaggedLines markers wider text,
      site ∈ untaggedLines markers lookback text := by
  have covered : ∀ site, CallsAt markers (Text.lines text.toList) site →
      site ∉ untaggedLines markers lookback text →
        ∃ tag, Covers markers lookback (Text.lines text.toList) tag site := by
    intro site calls silent
    rw [mem_untaggedLines_iff] at silent
    by_contra bare
    exact silent ⟨calls, bare⟩
  choose! tagOf covers using covered
  refine ⟨untaggedLines_eq_search markers lookback text,
    untaggedLines_ascending markers lookback text,
    mem_untaggedLines_iff markers lookback text, ⟨tagOf, ?_, ?_⟩, ?_⟩
  · intro site calls silent
    have found := covers site calls silent
    exact ⟨found.tagged, found.above, found.near⟩
  · rintro site ⟨calls, silent⟩ other ⟨calls', silent'⟩ same
    have found := covers site calls silent
    rw [same] at found
    exact found.unique (covers other calls' silent') calls calls'
  · intro wider more site reported
    rw [mem_untaggedLines_iff] at reported ⊢
    exact ⟨reported.1, fun ⟨tag, found⟩ => reported.2 ⟨tag, found.wider more⟩⟩

end RouteTags.Coverage
