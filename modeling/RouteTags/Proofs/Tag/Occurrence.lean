import RouteTags.Proofs.Tag.Reading

/-! What the search reports, against all the places where a tag is spelled. The search misses a
place only when it lies inside a tag that was reported before: after a tag it goes on behind the
blanks, and no tag starts with a blank. -/
namespace RouteTags.Tag

def OccursAt (kind : TagKind) (text method endpoint : List Char) (start stop : Nat) : Prop :=
  ∃ before tag after, text = before ++ tag ++ after ∧ Spelled kind method endpoint tag ∧
    start = Text.byteLength before ∧ stop = start + Text.byteLength tag

/-- The match is what the reader makes of some place of `s`, where `s` begins at `offset`. The
search is free to pass over that place. -/
def FoundIn (kind : TagKind) (offset : Nat) (s : List Char) (m : FoundTag) : Prop :=
  ∃ skipped rest r, s = skipped ++ rest ∧
    read? kind ⟨offset + Text.byteLength skipped, rest⟩ = some r ∧
    m = r.found kind (offset + Text.byteLength skipped)

theorem byteLength_pos {s : List Char} (nonempty : s ≠ []) : 0 < Text.byteLength s := by
  cases s with
  | nil => exact absurd rfl nonempty
  | cons c s =>
    rw [Text.byteLength_cons]
    exact Nat.add_pos_left c.utf8Size_pos _

theorem byteLength_takeWhile_le (p : Char → Bool) (s : List Char) :
    Text.byteLength (s.takeWhile p) ≤ Text.byteLength s := by
  have whole := congrArg Text.byteLength (List.takeWhile_append_dropWhile (p := p) (l := s))
  rw [Text.byteLength_append] at whole
  omega

theorem spelled_starts {kind : TagKind} {method endpoint tag : List Char}
    (spelled : Spelled kind method endpoint tag) : ∃ s, tag = '/' :: s := by
  cases spelled
  simp only [slashes, List.cons_append]
  exact ⟨_, rfl⟩

theorem byteLength_spelled_pos {kind : TagKind} {method endpoint tag : List Char}
    (spelled : Spelled kind method endpoint tag) : 0 < Text.byteLength tag := by
  obtain ⟨s, rfl⟩ := spelled_starts spelled
  exact byteLength_pos (List.cons_ne_nil _ _)

theorem noGap_of_read? {kind : TagKind} {c : Cursor} {r : Reading} (h : read? kind c = some r) :
    NoGap c.ahead := by
  obtain ⟨tag, spelled, passes⟩ := read?_eq_some_iff.mp h
  obtain ⟨s, rfl⟩ := spelled_starts spelled
  rw [passes.ahead]
  rfl

theorem read?_nil (kind : TagKind) (offset : Nat) : read? kind ⟨offset, []⟩ = none := rfl

theorem takeWhile_append_of_noGap (s : List Char) {rest : List Char} (stop : NoGap rest) :
    (s ++ rest).takeWhile isGap = s.takeWhile isGap := by
  induction s with
  | nil =>
    cases rest with
    | nil => rfl
    | cons c rest =>
      have h : isGap c = false := stop
      simp [h]
  | cons c s ih => by_cases h : isGap c <;> simp [h, ih]

theorem read?_advances {kind : TagKind} {c : Cursor} {r : Reading} (h : read? kind c = some r) :
    c.offset < r.stop.offset ∧ r.stop.offset ≤ r.stop.skipGaps.offset := by
  obtain ⟨tag, spelled, passes⟩ := read?_eq_some_iff.mp h
  have positive := byteLength_spelled_pos spelled
  have stopAt := passes.offset
  have resumed := r.stop.skipGaps_passes.offset
  omega

theorem append_eq_append_of_byteLength_le {a b c d : List Char} (same : a ++ b = c ++ d)
    (before : Text.byteLength a ≤ Text.byteLength c) : ∃ more, c = a ++ more ∧ b = more ++ d := by
  rcases List.append_eq_append_iff.mp same with h | ⟨more, ha, hd⟩
  · exact h
  · cases more with
    | nil => exact ⟨[], by simp [ha], by simp [hd]⟩
    | cons x more =>
      have positive := byteLength_pos (List.cons_ne_nil x more)
      rw [ha, Text.byteLength_append] at before
      omega

theorem start_lt_stop_of_lt_resume {kind : TagKind} {c : Cursor} {r r' : Reading}
    {skipped rest : List Char} (first : read? kind c = some r) (split : c.ahead = skipped ++ rest)
    (second : read? kind ⟨c.offset + Text.byteLength skipped, rest⟩ = some r')
    (early : c.offset + Text.byteLength skipped < r.stop.skipGaps.offset) :
    c.offset + Text.byteLength skipped < r.stop.offset := by
  obtain ⟨tag, _, passes⟩ := read?_eq_some_iff.mp first
  have stopAt := passes.offset
  by_cases inside : Text.byteLength skipped < Text.byteLength tag
  · omega
  · -- Otherwise the place lies among the blanks behind the tag, and a tag starts with none.
    have same : tag ++ r.stop.ahead = skipped ++ rest := passes.ahead.symm.trans split
    obtain ⟨more, hskipped, hahead⟩ :=
      append_eq_append_of_byteLength_le same (Nat.le_of_not_lt inside)
    have resumed := r.stop.skipGaps_passes.offset
    rw [hahead, takeWhile_append_of_noGap more (noGap_of_read? second)] at resumed
    have short := byteLength_takeWhile_le isGap more
    rw [hskipped, Text.byteLength_append] at early
    omega

theorem foundIn_nil (kind : TagKind) (offset : Nat) (m : FoundTag) : ¬ FoundIn kind offset [] m := by
  rintro ⟨skipped, rest, r, split, h, _⟩
  obtain ⟨rfl, rfl⟩ := List.append_eq_nil_iff.mp split.symm
  rw [read?_nil] at h
  cases h

theorem foundIn_cons_iff {kind : TagKind} {offset : Nat} {c : Char} {s : List Char}
    {m : FoundTag} :
    FoundIn kind offset (c :: s) m ↔
      (∃ r, read? kind ⟨offset, c :: s⟩ = some r ∧ m = r.found kind offset) ∨
        FoundIn kind (offset + c.utf8Size) s m := by
  constructor
  · rintro ⟨skipped, rest, r, split, h, rfl⟩
    cases skipped with
    | nil =>
      subst split
      exact .inl ⟨r, h, rfl⟩
    | cons d skipped =>
      obtain ⟨rfl, rfl⟩ := List.cons.inj split
      refine .inr ⟨skipped, rest, r, rfl, ?_, ?_⟩
      · simpa [Nat.add_assoc] using h
      · simp [Nat.add_assoc]
  · rintro (⟨r, h, rfl⟩ | ⟨skipped, rest, r, rfl, h, rfl⟩)
    · exact ⟨[], c :: s, r, rfl, h, rfl⟩
    · refine ⟨c :: skipped, rest, r, rfl, ?_, ?_⟩
      · simpa [Nat.add_assoc] using h
      · simp [Nat.add_assoc]

theorem foundIn_of_mem_findFrom {kind : TagKind} {resume offset : Nat} {s : List Char}
    {m : FoundTag} (h : m ∈ findFrom kind resume offset s) :
    FoundIn kind offset s m ∧ resume ≤ m.start ∧ offset ≤ m.start := by
  induction s generalizing resume offset with
  | nil => cases h
  | cons c s ih =>
    have further : ∀ {resume}, m ∈ findFrom kind resume (offset + c.utf8Size) s →
        FoundIn kind offset (c :: s) m ∧ resume ≤ m.start ∧ offset ≤ m.start := by
      intro resume h
      obtain ⟨found, late, ahead⟩ := ih h
      exact ⟨foundIn_cons_iff.mpr (.inr found), late, by omega⟩
    unfold findFrom at h
    split at h
    · exact further h
    · rename_i reached
      split at h
      · exact further h
      · rename_i r hr
        rcases List.mem_cons.mp h with rfl | h
        · exact ⟨foundIn_cons_iff.mpr (.inl ⟨r, hr, rfl⟩), Nat.le_of_not_lt reached, Nat.le_refl _⟩
        · obtain ⟨found, late, ahead⟩ := further h
          obtain ⟨long, skips⟩ := read?_advances hr
          simp only at long
          exact ⟨found, by omega, ahead⟩

theorem findFrom_pairwise (kind : TagKind) (resume offset : Nat) (s : List Char) :
    (findFrom kind resume offset s).Pairwise fun a b => a.start < b.start ∧ a.stop ≤ b.start := by
  induction s generalizing resume offset with
  | nil => exact .nil
  | cons c s ih =>
    unfold findFrom
    split
    · exact ih _ _
    · split
      · exact ih _ _
      · rename_i r hr
        apply List.Pairwise.cons
        · intro m hm
          obtain ⟨_, late, ahead⟩ := foundIn_of_mem_findFrom hm
          obtain ⟨_, skips⟩ := read?_advances hr
          have wide := c.utf8Size_pos
          simp only [Reading.found]
          omega
        · exact ih _ _

theorem mem_findFrom_or_inside {kind : TagKind} {resume offset : Nat} {s : List Char}
    {m : FoundTag} (found : FoundIn kind offset s m) (late : resume ≤ m.start) :
    m ∈ findFrom kind resume offset s ∨
      ∃ f ∈ findFrom kind resume offset s, f.start < m.start ∧ m.start < f.stop := by
  induction s generalizing resume offset with
  | nil => exact absurd found (foundIn_nil kind offset m)
  | cons c s ih =>
    unfold findFrom
    rcases foundIn_cons_iff.mp found with ⟨r, hr, rfl⟩ | further
    · have reached : ¬ offset < resume := Nat.not_lt.mpr late
      simp [reached, hr]
    · split
      · exact ih further late
      · split
        · exact ih further late
        · rename_i r hr
          by_cases resumed : r.stop.skipGaps.offset ≤ m.start
          · rcases ih further resumed with member | ⟨f, member, inside⟩
            · exact .inl (List.mem_cons_of_mem _ member)
            · exact .inr ⟨f, List.mem_cons_of_mem _ member, inside⟩
          · -- The search jumps over this place, so it lies inside the tag read here.
            obtain ⟨skipped, rest, r', rfl, h, rfl⟩ := further
            have wide := c.utf8Size_pos
            have place : offset + c.utf8Size + Text.byteLength skipped =
                offset + Text.byteLength (c :: skipped) := by simp [Nat.add_assoc]
            refine .inr ⟨_, List.mem_cons_self, ?_, ?_⟩
            · simp only [Reading.found]
              omega
            · simp only [Reading.found, place] at h resumed ⊢
              exact start_lt_stop_of_lt_resume hr rfl h (Nat.lt_of_not_le resumed)

theorem foundIn_zero_iff {kind : TagKind} {s : List Char} {m : FoundTag} :
    FoundIn kind 0 s m ↔ ∃ method endpoint, OccursAt kind s method endpoint m.start m.stop ∧
      m.kind = kind ∧ m.key = .normal (String.ofList method) (String.ofList endpoint) := by
  constructor
  · rintro ⟨before, rest, r, rfl, h, rfl⟩
    obtain ⟨tag, spelled, passes⟩ := read?_eq_some_iff.mp h
    refine ⟨r.method, r.endpoint, ⟨before, tag, r.stop.ahead, ?_, spelled, ?_, passes.offset⟩,
      rfl, rfl⟩
    · rw [List.append_assoc, ← passes.ahead]
    · exact Nat.zero_add _
  · rintro ⟨method, endpoint, ⟨before, tag, after, rfl, spelled, hstart, hstop⟩, hkind, hkey⟩
    have reads : read? kind ⟨0 + Text.byteLength before, tag ++ after⟩ =
        some ⟨method, endpoint, ⟨m.stop, after⟩⟩ := by
      refine read?_eq_some_iff.mpr ⟨tag, spelled, rfl, ?_⟩
      rw [hstop, hstart, Nat.zero_add]
    refine ⟨before, tag ++ after, _, List.append_assoc .., reads, ?_⟩
    cases m
    simp only [Reading.found] at hkind hkey hstart ⊢
    rw [hkind, hkey, hstart, Nat.zero_add]

theorem occursAt_of_mem_find {kind : TagKind} {text : String} {m : FoundTag}
    (member : m ∈ find kind text) : ∃ method endpoint,
      OccursAt kind text.toList method endpoint m.start m.stop ∧
      m.kind = kind ∧ m.key = .normal (String.ofList method) (String.ofList endpoint) :=
  foundIn_zero_iff.mp (foundIn_of_mem_findFrom member).1

/-- The search reports tags in order and without overlap; each is spelled at its place and carries
the normal form of its values; and every spelled tag of the text is reported or starts strictly
inside a reported one that starts earlier. -/
theorem find_exact (kind : TagKind) (text : String) :
    (find kind text).Pairwise (fun a b => a.start < b.start ∧ a.stop ≤ b.start) ∧
    (∀ m ∈ find kind text, ∃ method endpoint,
      OccursAt kind text.toList method endpoint m.start m.stop ∧ m.start < m.stop ∧
      m.kind = kind ∧ m.key = .normal (String.ofList method) (String.ofList endpoint)) ∧
    (∀ method endpoint start stop, OccursAt kind text.toList method endpoint start stop →
      ⟨kind, .normal (String.ofList method) (String.ofList endpoint), start, stop⟩ ∈
        find kind text ∨
      ∃ m ∈ find kind text, m.start < start ∧ start < m.stop) := by
  refine ⟨findFrom_pairwise kind 0 0 _, ?_, ?_⟩
  · intro m hm
    obtain ⟨found, _, _⟩ := foundIn_of_mem_findFrom hm
    obtain ⟨method, endpoint, occurs, hkind, hkey⟩ := foundIn_zero_iff.mp found
    obtain ⟨_, _, _, _, spelled, _, hstop⟩ := id occurs
    have positive := byteLength_spelled_pos spelled
    exact ⟨method, endpoint, occurs, by omega, hkind, hkey⟩
  · intro method endpoint start stop occurs
    exact mem_findFrom_or_inside (foundIn_zero_iff.mpr ⟨method, endpoint, occurs, rfl, rfl⟩)
      (Nat.zero_le _)

end RouteTags.Tag
