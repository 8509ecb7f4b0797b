import RouteTags.Text.Line

/-! The answers of a tally. It goes on from the last question, but each answer depends on the text
and the offset alone. A counter that keeps no more than an offset and a line, and reads a slice of
the text at each question, gives the same answers and never misses its slice. -/
namespace RouteTags.Text

def lineAt (text : List UInt8) (offset : Nat) : UInt32 :=
  ((text.take offset).count lineFeed).toUInt32

namespace LineTally

theorem forward_spec (t : LineTally) (n : Nat) :
    (t.forward n).text = t.text ∧ (t.forward n).offset = t.offset + min n t.ahead.length := by
  unfold forward
  split
  rename_i offset line ahead counted
  rw [countOn_eq] at counted
  obtain ⟨rfl, _⟩ := Prod.mk.inj counted
  exact ⟨rfl, rfl⟩

theorem take_forward (t : LineTally) (n : Nat) :
    t.text.take (t.forward n).offset = t.text.take (t.offset + n) := by
  rw [(t.forward_spec n).2, t.ahead_eq, List.length_drop]
  by_cases inside : n ≤ t.text.length - t.offset
  · rw [Nat.min_eq_left inside]
  · rw [List.take_of_length_le (by omega), List.take_of_length_le (by omega)]

theorem line_forward (t : LineTally) (n : Nat) :
    (t.forward n).line = (t.text.take (t.offset + n)).count lineFeed := by
  rw [(t.forward n).line_eq, (t.forward_spec n).1, take_forward]

theorem text_seek (t : LineTally) (offset : Nat) : (t.seek offset).text = t.text := by
  unfold seek
  split
  · exact (t.forward_spec _).1
  · exact ((ofBytes t.text).forward_spec _).1

theorem line_seek (t : LineTally) (offset : Nat) :
    (t.seek offset).line = (t.text.take offset).count lineFeed := by
  unfold seek
  split
  · rename_i ahead
    rw [line_forward, Nat.add_sub_cancel' ahead]
  · rw [line_forward]
    simp only [ofBytes, Nat.zero_add]

theorem offset_seek {t : LineTally} (inside : t.offset ≤ t.text.length) (offset : Nat) :
    (t.seek offset).offset = min offset t.text.length := by
  unfold seek
  split
  · rw [(t.forward_spec _).2, t.ahead_eq, List.length_drop]
    omega
  · rw [((ofBytes t.text).forward_spec _).2]
    simp only [ofBytes, Nat.zero_add]

def linesOf (t : LineTally) : List Nat → List UInt32
  | [] => []
  | offset :: rest => (t.lineOf offset).1 :: (t.lineOf offset).2.linesOf rest

theorem linesOf_eq (t : LineTally) (offsets : List Nat) :
    t.linesOf offsets = offsets.map (lineAt t.text) := by
  induction offsets generalizing t with
  | nil => rfl
  | cons offset rest ih =>
    have text : (t.lineOf offset).2.text = t.text := t.text_seek offset
    rw [linesOf, ih, text, lineOf, t.line_seek]
    rfl

end LineTally

def slice? (text : List UInt8) (start stop : Nat) : Option (List UInt8) :=
  if start ≤ stop ∧ stop ≤ text.length then some ((text.drop start).take (stop - start)) else none

structure Mark where
  offset : Nat
  line : Nat

/-- One question to a counter. It fails without a slice from the last offset, or from the start, to
the one that is asked for, and when the line outgrows every offset of the text. -/
def Mark.ask? (text : List UInt8) (m : Mark) (offset : Nat) : Option (UInt32 × Mark) :=
  let stop := min offset text.length
  let last := if stop < m.offset then ⟨0, 0⟩ else m
  (slice? text last.offset stop).bind fun between =>
    let line := last.line + between.count lineFeed
    if line ≤ text.length then some (line.toUInt32, ⟨stop, line⟩) else none

def Mark.askAll? (text : List UInt8) : Mark → List Nat → Option (List UInt32)
  | _, [] => some []
  | m, offset :: rest =>
    (m.ask? text offset).bind fun (line, m) => (m.askAll? text rest).map (line :: ·)

namespace Mark

structure Marks (text : List UInt8) (m : Mark) : Prop where
  inside : m.offset ≤ text.length
  line_eq : m.line = (text.take m.offset).count lineFeed

variable {text : List UInt8} {m : Mark}

theorem Marks.slice?_eq (h : m.Marks text) {stop : Nat} (later : m.offset ≤ stop)
    (inside : stop ≤ text.length) : ∃ between, slice? text m.offset stop = some between ∧
      m.line + between.count lineFeed = (text.take stop).count lineFeed := by
  refine ⟨_, if_pos ⟨later, inside⟩, ?_⟩
  rw [h.line_eq, ← List.count_append, ← List.take_add, Nat.add_sub_cancel' later]

theorem Marks.ask?_eq (h : m.Marks text) (offset : Nat) : m.ask? text offset =
    some (lineAt text offset, ⟨min offset text.length, (text.take offset).count lineFeed⟩) := by
  have inside : min offset text.length ≤ text.length := Nat.min_le_right _ _
  have start : Marks text ⟨0, 0⟩ := ⟨Nat.zero_le _, rfl⟩
  have counted : ∃ between,
      slice? text (if min offset text.length < m.offset then ⟨0, 0⟩ else m : Mark).offset
        (min offset text.length) = some between ∧
      (if min offset text.length < m.offset then ⟨0, 0⟩ else m : Mark).line +
        between.count lineFeed = (text.take offset).count lineFeed := by
    rw [List.take_eq_take_min (i := offset)]
    split
    · exact start.slice?_eq (Nat.zero_le _) inside
    · exact h.slice?_eq (by omega) inside
  obtain ⟨between, slice, line⟩ := counted
  have fits : (text.take offset).count lineFeed ≤ text.length :=
    Nat.le_trans List.count_le_length (List.length_take_le' _ _)
  simp only [ask?, slice, Option.bind_some, line, if_pos fits, lineAt]

def ofTally (t : LineTally) : Mark := ⟨t.offset, t.line⟩

theorem ask?_ofTally {t : LineTally} (inside : t.offset ≤ t.text.length) (offset : Nat) :
    (ofTally t).ask? t.text offset =
      some ((t.lineOf offset).1, ofTally (t.lineOf offset).2) := by
  have marks : (ofTally t).Marks t.text := ⟨inside, t.line_eq⟩
  rw [marks.ask?_eq, ofTally, LineTally.lineOf, t.line_seek, LineTally.offset_seek inside]
  rfl

theorem askAll?_ofTally {t : LineTally} (inside : t.offset ≤ t.text.length) (offsets : List Nat) :
    (ofTally t).askAll? t.text offsets = some (t.linesOf offsets) := by
  induction offsets generalizing t with
  | nil => rfl
  | cons offset rest ih =>
    have text : (t.lineOf offset).2.text = t.text := t.text_seek offset
    have there : (t.lineOf offset).2.offset ≤ (t.lineOf offset).2.text.length := by
      rw [text, LineTally.lineOf, LineTally.offset_seek inside]
      exact Nat.min_le_right _ _
    have later := ih there
    rw [text] at later
    simp only [askAll?, ask?_ofTally inside, Option.bind_some, later, Option.map_some,
      LineTally.linesOf]

end Mark

/-- Whatever is asked, and in whatever order, each answer is the number of line feeds before the
offset, or in the whole text when the offset lies past its end, in thirty-two bits. On the way a
counter by slices finds every slice that it needs. -/
theorem linesOf_exact (text : String) (offsets : List Nat) :
    Mark.askAll? (utf8 text) ⟨0, 0⟩ offsets = some ((LineTally.ofText text).linesOf offsets) ∧
    ((LineTally.ofText text).linesOf offsets).map UInt32.toNat = offsets.map fun offset =>
      ((utf8 text).take (min offset (utf8 text).length)).count lineFeed % UInt32.size := by
  refine ⟨Mark.askAll?_ofTally (t := .ofText text) (Nat.zero_le _) offsets, ?_⟩
  rw [LineTally.linesOf_eq, List.map_map]
  refine List.map_congr_left fun offset _ => ?_
  rw [← List.take_eq_take_min]
  rfl

end RouteTags.Text
