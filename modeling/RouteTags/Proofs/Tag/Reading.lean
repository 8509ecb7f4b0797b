import RouteTags.Tag.Reader

namespace RouteTags.Tag

/-- `d` is the cursor behind `part`, which stands right ahead of `c`. -/
structure Cursor.Passes (c : Cursor) (part : List Char) (d : Cursor) : Prop where
  ahead : c.ahead = part ++ d.ahead
  offset : d.offset = c.offset + Text.byteLength part

def NoGap (s : List Char) : Prop := s.head?.any isGap = false

namespace Cursor

theorem ext_of {c d : Cursor} (offset : c.offset = d.offset) (ahead : c.ahead = d.ahead) :
    c = d := by
  cases c
  cases d
  cases offset
  cases ahead
  rfl

theorem Passes.append {c d e : Cursor} {p q : List Char} (first : c.Passes p d)
    (second : d.Passes q e) : c.Passes (p ++ q) e := by
  constructor
  · rw [first.ahead, second.ahead, List.append_assoc]
  · rw [second.offset, first.offset, Text.byteLength_append, Nat.add_assoc]

theorem Passes.split {c e : Cursor} {p q : List Char} (whole : c.Passes (p ++ q) e) :
    ∃ d, c.Passes p d ∧ d.Passes q e := by
  refine ⟨⟨c.offset + Text.byteLength p, q ++ e.ahead⟩, ⟨?_, rfl⟩, ⟨rfl, ?_⟩⟩
  · rw [whole.ahead, List.append_assoc]
  · rw [whole.offset, Text.byteLength_append, Nat.add_assoc]

theorem Passes.unique {c d e : Cursor} {p : List Char} (one : c.Passes p d)
    (other : c.Passes p e) : d = e := by
  apply ext_of
  · rw [one.offset, other.offset]
  · exact List.append_cancel_left (one.ahead.symm.trans other.ahead)

theorem expect?_eq_some_iff {c d : Cursor} {word : List Char} :
    c.expect? word = some d ↔ c.Passes word d := by
  simp only [expect?, Option.map_eq_some_iff, Text.after?_eq_some_iff]
  constructor
  · rintro ⟨rest, ahead, rfl⟩
    exact ⟨ahead, rfl⟩
  · intro h
    exact ⟨d.ahead, h.ahead, ext_of h.offset.symm rfl⟩

theorem skipGaps_passes (c : Cursor) : c.Passes (c.ahead.takeWhile isGap) c.skipGaps :=
  ⟨List.takeWhile_append_dropWhile.symm, rfl⟩

theorem gap_takeWhile (s : List Char) : Gap (s.takeWhile isGap) :=
  List.all_eq_true.mp List.all_takeWhile

theorem takeWhile_of_gap {gap rest : List Char} (blank : Gap gap) (stop : NoGap rest) :
    (gap ++ rest).takeWhile isGap = gap := by
  rw [List.takeWhile_append_of_pos blank]
  cases rest with
  | nil => simp
  | cons c rest =>
    have h : isGap c = false := stop
    simp [h]

theorem skipGaps_eq_of_passes {c d : Cursor} {gap : List Char} (h : c.Passes gap d)
    (blank : Gap gap) (stop : NoGap d.ahead) : c.skipGaps = d := by
  have skipped := c.skipGaps_passes
  rw [h.ahead, takeWhile_of_gap blank stop] at skipped
  exact skipped.unique h

theorem skipGaps_expect?_eq_some_iff {c d : Cursor} {word : List Char} (nonempty : word ≠ [])
    (stop : NoGap word) :
    c.skipGaps.expect? word = some d ↔ ∃ gap, Gap gap ∧ c.Passes (gap ++ word) d := by
  rw [expect?_eq_some_iff]
  constructor
  · intro h
    exact ⟨_, gap_takeWhile _, c.skipGaps_passes.append h⟩
  · rintro ⟨gap, blank, h⟩
    obtain ⟨e, first, second⟩ := h.split
    have stops : NoGap e.ahead := by
      cases word with
      | nil => exact absurd rfl nonempty
      | cons x word => simpa [NoGap, second.ahead] using stop
    rw [skipGaps_eq_of_passes first blank stops]
    exact second

theorem value_takeWhile (s : List Char) : Value (s.takeWhile isValueChar) :=
  List.all_eq_true.mp List.all_takeWhile

theorem takeWhile_of_value {value rest : List Char} (inside : Value value) :
    (value ++ (quote ++ rest)).takeWhile isValueChar = value := by
  rw [List.takeWhile_append_of_pos inside]
  simp [quote, isValueChar]

theorem value?_eq_some_iff {c d : Cursor} {value : List Char} :
    c.value? = some (value, d) ↔ Value value ∧ c.Passes (quote ++ value ++ quote) d := by
  simp only [value?, Option.bind_eq_bind, Option.bind_eq_some_iff, expect?_eq_some_iff,
    Option.pure_def, Option.some.injEq, Prod.mk.injEq]
  constructor
  · rintro ⟨opened, opens, closed, closes, rfl, rfl⟩
    refine ⟨value_takeWhile _, (opens.append ?_).append closes⟩
    exact ⟨List.takeWhile_append_dropWhile.symm, rfl⟩
  · rintro ⟨inside, h⟩
    obtain ⟨closing, before, closes⟩ := h.split
    obtain ⟨opened, opens, between⟩ := before.split
    have taken : opened.ahead.takeWhile isValueChar = value := by
      rw [between.ahead, closes.ahead, takeWhile_of_value inside]
    have dropped : opened.ahead.dropWhile isValueChar = closing.ahead := by
      have split := List.takeWhile_append_dropWhile (p := isValueChar) (l := opened.ahead)
      rw [taken] at split
      exact List.append_cancel_left (split.trans between.ahead)
    refine ⟨opened, opens, d, ?_, taken, rfl⟩
    rw [taken, dropped, ← between.offset]
    exact closes

theorem skipGaps_value?_eq_some_iff {c d : Cursor} {value : List Char} :
    c.skipGaps.value? = some (value, d) ↔
      ∃ gap, Gap gap ∧ Value value ∧ c.Passes (gap ++ (quote ++ value ++ quote)) d := by
  rw [value?_eq_some_iff]
  constructor
  · rintro ⟨inside, h⟩
    exact ⟨_, gap_takeWhile _, inside, c.skipGaps_passes.append h⟩
  · rintro ⟨gap, blank, inside, h⟩
    obtain ⟨e, first, second⟩ := h.split
    have stops : NoGap e.ahead := by
      simp [NoGap, second.ahead, quote, isGap]
    rw [skipGaps_eq_of_passes first blank stops]
    exact ⟨inside, second⟩

end Cursor

theorem literal_ne_nil (kind : TagKind) : kind.literal.toList ≠ [] := by
  cases kind <;> decide

theorem noGap_literal (kind : TagKind) : NoGap kind.literal.toList := by
  cases kind <;> rfl

/-- The reader accepts exactly the spelled tags, with their values and the place behind them. -/
theorem read?_eq_some_iff {kind : TagKind} {start : Cursor} {r : Reading} :
    read? kind start = some r ↔
      ∃ tag, Spelled kind r.method r.endpoint tag ∧ start.Passes tag r.stop := by
  have markerStarts : NoGap marker := rfl
  have methodStarts : NoGap methodLabel := rfl
  have endpointStarts : NoGap endpointLabel := rfl
  simp only [read?, Option.bind_eq_bind, Option.bind_eq_some_iff, Option.pure_def,
    Option.some.injEq, Prod.exists, Cursor.expect?_eq_some_iff,
    Cursor.skipGaps_value?_eq_some_iff,
    Cursor.skipGaps_expect?_eq_some_iff (literal_ne_nil kind) (noGap_literal kind),
    Cursor.skipGaps_expect?_eq_some_iff (by decide) markerStarts,
    Cursor.skipGaps_expect?_eq_some_iff (by decide) methodStarts,
    Cursor.skipGaps_expect?_eq_some_iff (by decide) endpointStarts]
  constructor
  · rintro ⟨opened, opens, marked, ⟨g₁, b₁, marks⟩, kinded, ⟨g₂, b₂, kinds⟩, labelled,
      ⟨g₃, b₃, labels⟩, method, valued, ⟨g₄, b₄, inside₁, values⟩, parted, parts, relabelled,
      ⟨g₅, b₅, relabels⟩, endpoint, stop, ⟨g₆, b₆, inside₂, ends⟩, rfl⟩
    have whole := opens.append (marks.append (kinds.append (labels.append (values.append
      (parts.append (relabels.append ends))))))
    exact ⟨_, .tag g₁ g₂ g₃ g₄ g₅ g₆ ⟨b₁, b₂, b₃, b₄, b₅, b₆⟩ ⟨inside₁, inside₂⟩,
      by simpa only [List.append_assoc] using whole⟩
  · rintro ⟨tag, ⟨g₁, g₂, g₃, g₄, g₅, g₆, ⟨b₁, b₂, b₃, b₄, b₅, b₆⟩, inside₁, inside₂⟩, passes⟩
    have grouped : start.Passes (slashes ++ ((g₁ ++ marker) ++ ((g₂ ++ kind.literal.toList) ++
        ((g₃ ++ methodLabel) ++ ((g₄ ++ (quote ++ r.method ++ quote)) ++ (comma ++
          ((g₅ ++ endpointLabel) ++ (g₆ ++ (quote ++ r.endpoint ++ quote))))))))) r.stop := by
      simpa only [List.append_assoc] using passes
    obtain ⟨opened, opens, grouped⟩ := grouped.split
    obtain ⟨marked, marks, grouped⟩ := grouped.split
    obtain ⟨kinded, kinds, grouped⟩ := grouped.split
    obtain ⟨labelled, labels, grouped⟩ := grouped.split
    obtain ⟨valued, values, grouped⟩ := grouped.split
    obtain ⟨parted, parts, grouped⟩ := grouped.split
    obtain ⟨relabelled, relabels, ends⟩ := grouped.split
    exact ⟨opened, opens, marked, ⟨g₁, b₁, marks⟩, kinded, ⟨g₂, b₂, kinds⟩, labelled,
      ⟨g₃, b₃, labels⟩, r.method, valued, ⟨g₄, b₄, inside₁, values⟩, parted, parts, relabelled,
      ⟨g₅, b₅, relabels⟩, r.endpoint, r.stop, ⟨g₆, b₆, inside₂, ends⟩, rfl⟩

end RouteTags.Tag
