import RouteTags.Text.Search

/-!
Lines. A line feed ends a line, a carriage return just before it belongs to the ending, and a
text that ends with a line feed has no further, empty line. A `LineTally` numbers byte
offsets by the line feeds before them and goes on from where the last question left off.
-/
namespace RouteTags.Text

def dropReturn (line : List Char) : List Char :=
  if line.getLast? = some '\r' then line.dropLast else line

/-- The lines of what is still to be read. `line` holds the current line and `done` the lines
before it, both backwards. -/
def linesFrom (line : List Char) (done : List (List Char)) : List Char → List (List Char)
  | [] => if line.isEmpty then done.reverse else (line.reverse :: done).reverse
  | c :: s =>
    if c = '\n' then linesFrom [] (dropReturn line.reverse :: done) s
    else linesFrom (c :: line) done s

def lines (s : List Char) : List (List Char) := linesFrom [] [] s

def byteLength (s : List Char) : Nat := s.foldl (fun n c => n + c.utf8Size) 0

theorem foldl_utf8Size (s : List Char) (n : Nat) :
    s.foldl (fun n c => n + c.utf8Size) n = n + byteLength s := by
  induction s generalizing n with
  | nil => rfl
  | cons c s ih =>
    simp only [byteLength, List.foldl_cons]
    rw [ih, ih (0 + c.utf8Size)]
    omega

@[simp] theorem byteLength_nil : byteLength [] = 0 := rfl

@[simp] theorem byteLength_cons (c : Char) (s : List Char) :
    byteLength (c :: s) = c.utf8Size + byteLength s := by
  have h := foldl_utf8Size s (0 + c.utf8Size)
  simpa [byteLength] using h

@[simp] theorem byteLength_append (s t : List Char) :
    byteLength (s ++ t) = byteLength s + byteLength t := by
  have h := foldl_utf8Size t (byteLength s)
  simpa [byteLength] using h

def encode (s : List Char) : List UInt8 := s.flatMap String.utf8EncodeChar

@[simp] theorem encode_append (s t : List Char) : encode (s ++ t) = encode s ++ encode t := by
  simp [encode]

def utf8 (s : String) : List UInt8 := encode s.toList

def lineFeed : UInt8 := 10

/-- Where the last question stood: at a byte offset, on a line, with the rest of the text
ahead. -/
structure LineTally where
  text : List UInt8
  offset : Nat
  line : Nat
  ahead : List UInt8
  ahead_eq : ahead = text.drop offset
  line_eq : line = (text.take offset).count lineFeed

def LineTally.ofBytes (text : List UInt8) : LineTally :=
  ⟨text, 0, 0, text, rfl, rfl⟩

def LineTally.ofText (text : String) : LineTally := .ofBytes (utf8 text)

def countOn : Nat → List UInt8 → Nat → Nat → Nat × Nat × List UInt8
  | 0, ahead, offset, line => (offset, line, ahead)
  | _ + 1, [], offset, line => (offset, line, [])
  | n + 1, b :: ahead, offset, line =>
    countOn n ahead (offset + 1) (if b = lineFeed then line + 1 else line)

theorem countOn_eq (n : Nat) (ahead : List UInt8) (offset line : Nat) :
    countOn n ahead offset line =
      (offset + min n ahead.length, line + (ahead.take n).count lineFeed, ahead.drop n) := by
  induction n generalizing ahead offset line with
  | zero => simp [countOn]
  | succ n ih =>
    cases ahead with
    | nil => simp [countOn]
    | cons b ahead =>
      rw [countOn, ih]
      by_cases h : b = lineFeed
      · simp [h]; omega
      · simp [h]; omega

def LineTally.forward (c : LineTally) (n : Nat) : LineTally :=
  match h : countOn n c.ahead c.offset c.line with
  | (offset, line, ahead) =>
    { text := c.text
      offset, line, ahead
      ahead_eq := by
        have e := countOn_eq n c.ahead c.offset c.line
        rw [h] at e
        obtain ⟨ho, -, ha⟩ : offset = _ ∧ line = _ ∧ ahead = _ := by simpa using e
        rw [ha, ho, c.ahead_eq, List.drop_drop]
        by_cases hn : n ≤ (c.text.drop c.offset).length
        · rw [Nat.min_eq_left hn]
        · rw [List.drop_eq_nil_of_le (by simp at hn; omega),
            List.drop_eq_nil_of_le (by simp at hn ⊢; omega)]
      line_eq := by
        have e := countOn_eq n c.ahead c.offset c.line
        rw [h] at e
        obtain ⟨ho, hl, -⟩ : offset = _ ∧ line = _ ∧ ahead = _ := by simpa using e
        rw [hl, ho, c.line_eq, c.ahead_eq, List.take_add, List.count_append]
        congr 2
        by_cases hn : n ≤ (c.text.drop c.offset).length
        · rw [Nat.min_eq_left hn]
        · rw [List.take_of_length_le (by omega), List.take_of_length_le (by simp at hn ⊢; omega)] }

/-- The tally at a byte offset, or at the end of the text when that comes first. An offset
before the last one is counted from the start again. -/
def LineTally.seek (c : LineTally) (offset : Nat) : LineTally :=
  if c.offset ≤ offset then c.forward (offset - c.offset)
  else (LineTally.ofBytes c.text).forward offset

def LineTally.lineOf (c : LineTally) (offset : Nat) : UInt32 × LineTally :=
  let there := c.seek offset
  (there.line.toUInt32, there)

end RouteTags.Text
