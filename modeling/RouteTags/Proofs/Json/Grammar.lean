import RouteTags.Json.Skip

namespace RouteTags.Json

def Spaces (s : List Char) : Prop := ∀ c ∈ s, c ∈ [' ', '\t', '\n', '\r']

instance (s : List Char) : Decidable (Spaces s) :=
  List.decidableBAll (· ∈ [' ', '\t', '\n', '\r']) s

def hexDigits : List (Char × Nat) :=
  [('0', 0), ('1', 1), ('2', 2), ('3', 3), ('4', 4), ('5', 5), ('6', 6), ('7', 7), ('8', 8), ('9', 9),
   ('a', 10), ('b', 11), ('c', 12), ('d', 13), ('e', 14), ('f', 15),
   ('A', 10), ('B', 11), ('C', 12), ('D', 13), ('E', 14), ('F', 15)]

def shortEscapes : List (Char × Char) :=
  [('"', '"'), ('\\', '\\'), ('/', '/'), ('b', '\x08'), ('f', '\x0c'), ('n', '\n'), ('r', '\r'),
   ('t', '\t')]

inductive LongEscape : List Char → Nat → Prop
  | intro {a b c d : Char} {p q r s : Nat} (first : (a, p) ∈ hexDigits) (second : (b, q) ∈ hexDigits)
      (third : (c, r) ∈ hexDigits) (fourth : (d, s) ∈ hexDigits) :
      LongEscape ['\\', 'u', a, b, c, d] (((p * 16 + q) * 16 + r) * 16 + s)

def Unescaped (c : Char) : Prop := 0x20 ≤ c.toNat ∧ c ≠ '"' ∧ c ≠ '\\'

instance (c : Char) : Decidable (Unescaped c) :=
  inferInstanceAs (Decidable (0x20 ≤ c.toNat ∧ c ≠ '"' ∧ c ≠ '\\'))

inductive StringBody : List Char → Prop
  | nil : StringBody []
  | plain {c s} (unescaped : Unescaped c) (rest : StringBody s) : StringBody (c :: s)
  | short {e c s} (listed : (e, c) ∈ shortEscapes) (rest : StringBody s) :
      StringBody ('\\' :: e :: s)
  | long {u n s} (escape : LongEscape u n) (rest : StringBody s) : StringBody (u ++ s)

inductive Denotes : List Char → List Char → Prop
  | nil : Denotes [] []
  | plain {c s t} (unescaped : Unescaped c) (rest : Denotes s t) : Denotes (c :: s) (c :: t)
  | short {e c s t} (listed : (e, c) ∈ shortEscapes) (rest : Denotes s t) :
      Denotes ('\\' :: e :: s) (c :: t)
  | long {u n s t} (escape : LongEscape u n) (single : n < 0xD800 ∨ 0xDFFF < n)
      (rest : Denotes s t) : Denotes (u ++ s) (Char.ofNat n :: t)
  | pair {u v m n s t} (high : LongEscape u m) (highRange : 0xD800 ≤ m ∧ m ≤ 0xDBFF)
      (low : LongEscape v n) (lowRange : 0xDC00 ≤ n ∧ n ≤ 0xDFFF) (rest : Denotes s t) :
      Denotes (u ++ (v ++ s)) (Char.ofNat (0x10000 + (m - 0xD800) * 0x400 + (n - 0xDC00)) :: t)

theorem denotes_plain {front s t : List Char} (plain : front.all (Unescaped ·))
    (rest : Denotes s t) : Denotes (front ++ s) (front ++ t) := by
  induction front with
  | nil => exact rest
  | cons c front ih =>
    rw [List.all_cons, Bool.and_eq_true, decide_eq_true_eq] at plain
    exact .plain plain.1 (ih plain.2)

inductive Quoted : List Char → String → Prop
  | intro {s t} (denotes : Denotes s t) : Quoted ('"' :: (s ++ ['"'])) (String.ofList t)

def Digits (s : List Char) : Prop := s ≠ [] ∧ ∀ c ∈ s, c ∈ "0123456789".toList

instance (s : List Char) : Decidable (Digits s) :=
  @instDecidableAnd _ _ inferInstance (List.decidableBAll (· ∈ "0123456789".toList) s)

def IsWhole (s : List Char) : Prop := s = ['0'] ∨ Digits s ∧ s.head? ≠ some '0'

def IsFraction (s : List Char) : Prop := s = [] ∨ ∃ digits, Digits digits ∧ s = '.' :: digits

def IsExponent (s : List Char) : Prop :=
  s = [] ∨ ∃ e sign digits, e ∈ ['e', 'E'] ∧ sign ∈ [[], ['+'], ['-']] ∧ Digits digits ∧
    s = e :: (sign ++ digits)

inductive IsNumber : List Char → Prop
  | intro {sign whole fraction exponent} (signed : sign ∈ [[], ['-']]) (isWhole : IsWhole whole)
      (isFraction : IsFraction fraction) (isExponent : IsExponent exponent) :
      IsNumber (sign ++ (whole ++ (fraction ++ exponent)))

def Frame.left : Frame → Char
  | .list => '['
  | .record => '\x7b'

def Frame.right : Frame → Char
  | .list => ']'
  | .record => '\x7d'

inductive IsKey : Frame → List Char → Prop
  | item : IsKey .list []
  | member {before name after} (leading : Spaces before) (body : StringBody name)
      (trailing : Spaces after) :
      IsKey .record (before ++ '"' :: (name ++ '"' :: (after ++ [':'])))

/-- A value, or what stands between the brackets of a list or record. -/
inductive Part where
  | value
  | inside (f : Frame)

inductive WellFormed : Part → List Char → Prop
  | word {s} (listed : s ∈ ["null".toList, "true".toList, "false".toList]) : WellFormed .value s
  | number {s} (isNumber : IsNumber s) : WellFormed .value s
  | text {s} (body : StringBody s) : WellFormed .value ('"' :: (s ++ ['"']))
  | empty (f : Frame) {s} (spaces : Spaces s) : WellFormed .value (f.left :: (s ++ [f.right]))
  | full (f : Frame) {s} (inside : WellFormed (.inside f) s) :
      WellFormed .value (f.left :: (s ++ [f.right]))
  | last {f key before value after} (isKey : IsKey f key) (leading : Spaces before)
      (isValue : WellFormed .value value) (trailing : Spaces after) :
      WellFormed (.inside f) (key ++ (before ++ (value ++ after)))
  | more {f key before value after rest} (isKey : IsKey f key) (leading : Spaces before)
      (isValue : WellFormed .value value) (trailing : Spaces after)
      (others : WellFormed (.inside f) rest) :
      WellFormed (.inside f) (key ++ (before ++ (value ++ (after ++ ',' :: rest))))

inductive Separated {α : Type} (Item : List Char → α → Prop) : List Char → List α → Prop
  | last {before item after x} (leading : Spaces before) (isItem : Item item x)
      (trailing : Spaces after) : Separated Item (before ++ (item ++ after)) [x]
  | more {before item after rest x xs} (leading : Spaces before) (isItem : Item item x)
      (trailing : Spaces after) (others : Separated Item rest xs) :
      Separated Item (before ++ (item ++ (after ++ ',' :: rest))) (x :: xs)

inductive Bracketed {α : Type} (f : Frame) (Item : List Char → α → Prop) :
    List Char → List α → Prop
  | empty {s} (spaces : Spaces s) : Bracketed f Item (f.left :: (s ++ [f.right])) []
  | full {s xs} (items : Separated Item s xs) : Bracketed f Item (f.left :: (s ++ [f.right])) xs

structure Member where
  name : String
  value : List Char

inductive IsMember : List Char → Member → Prop
  | intro {key before after : List Char} {m : Member} (isName : Quoted key m.name)
      (leading : Spaces before) (trailing : Spaces after) :
      IsMember (key ++ (before ++ ':' :: (after ++ m.value))) m

/-- What a field is given in a record: its value if one member has its name, and its default if
none has. -/
def Given {α : Type} (Value : List Char → α → Prop) (default : α) (members : List Member)
    (name : String) (a : α) : Prop :=
  match members.filter fun m => m.name = name with
  | [] => a = default
  | [m] => Value m.value a
  | _ => False

/-- A record of two fields of one kind, in any order and among any other members. -/
inductive IsRecord {α : Type} (Value : List Char → α → Prop) (default : α) (first second : String) :
    List Char → α → α → Prop
  | intro {s a b members} (written : Bracketed .record IsMember s members)
      (givenFirst : Given Value default members first a)
      (givenSecond : Given Value default members second b)
      (others : ∀ m ∈ members, m.name ≠ first → m.name ≠ second → WellFormed .value m.value) :
      IsRecord Value default first second s a b

end RouteTags.Json
