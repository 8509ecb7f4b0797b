import RouteTags.Config.Reader
import RouteTags.Proofs.Json.Skipping

namespace RouteTags.Json

/-- The reader gives what is meant by what is written, behind any layout and in front of any rest. -/
def Reads {α : Type} (read : List UInt8 → Except Stop (α × List UInt8))
    (Value : List Char → α → Prop) : Prop :=
  ∀ {s a}, Value s a → ∀ {before}, Spaces before → ∀ rest,
    read (Text.encode before ++ (Text.encode s ++ rest)) = .ok (a, rest)

theorem spaces_nil : Spaces [] := fun _ h => absurd h List.not_mem_nil

theorem encode_quoted (s : List Char) (rest : List UInt8) :
    Text.encode ('"' :: (s ++ ['"'])) ++ rest = quoteByte :: (Text.encode s ++ quoteByte :: rest) := by
  have quote : Text.encode ['"'] = [quoteByte] := rfl
  rw [Text.encode_cons, Text.encode_append, quote, List.append_assoc, List.append_assoc]
  rfl

theorem reads_quoted : Reads readString Quoted := by
  rintro _ _ ⟨denotes⟩ before leading rest
  have quote : isLayout quoteByte = false := by decide
  rw [encode_quoted, readString, skipLayout_spaces leading quote]
  simp only [if_pos]
  exact readText_denotes denotes rest

inductive Leads : Bool → List UInt8 → Prop
  | first : Leads true []
  | later {after} (trailing : Spaces after) : Leads false (Text.encode after ++ [commaByte])

section

variable {first : Bool} {lead : List UInt8} {before : List Char} (leading : Spaces before)

include leading

theorem nextItem_item (leads : Leads first lead) (s : List UInt8) :
    nextItem first (lead ++ (Text.encode before ++ quoteByte :: s)) = .ok (true, quoteByte :: s) := by
  have quote : isLayout quoteByte = false := by decide
  have comma : isLayout commaByte = false := by decide
  have other : quoteByte ≠ closeList ∧ quoteByte ≠ commaByte := by decide
  have between : commaByte ≠ closeList := by decide
  cases leads with
  | first =>
    rw [List.nil_append, nextItem, skipLayout_spaces leading quote]
    simp [other.1, other.2]
  | later trailing =>
    rw [List.append_assoc, List.singleton_append, nextItem, skipLayout_spaces trailing comma]
    simp [between, skipLayout_spaces leading quote, other.1]

theorem nextMember_member (leads : Leads first lead) (s : List UInt8) :
    nextMember first (lead ++ (Text.encode before ++ quoteByte :: s)) = .ok (true, s) := by
  have quote : isLayout quoteByte = false := by decide
  have comma : isLayout commaByte = false := by decide
  have other : quoteByte ≠ closeRecord ∧ quoteByte ≠ commaByte := by decide
  have between : commaByte ≠ closeRecord := by decide
  cases leads with
  | first =>
    rw [List.nil_append, nextMember, skipLayout_spaces leading quote]
    simp [other.1, other.2]
  | later trailing =>
    rw [List.append_assoc, List.singleton_append, nextMember, skipLayout_spaces trailing comma]
    simp [between, skipLayout_spaces leading quote]

theorem readStrings_end (fuel : Nat) (first : Bool) (rest : List UInt8) :
    readStrings (fuel + 1) first (Text.encode before ++ closeList :: rest) = .ok ([], rest) := by
  have close : isLayout closeList = false := by decide
  have next : nextItem first (Text.encode before ++ closeList :: rest) =
      .ok (false, closeList :: rest) := by
    rw [nextItem, skipLayout_spaces leading close]
    simp
  have ends : endList (closeList :: rest) = .ok rest := by
    rw [endList, skipLayout_cons close]
    simp
  simp only [readStrings, next, ends, bind, Except.bind, pure, Except.pure]

theorem readMembers_end {α : Type} (shape : Shape α) (fuel : Nat) (first : Bool) (a b : Option α)
    (rest : List UInt8) :
    readMembers shape (fuel + 1) first a b (Text.encode before ++ closeRecord :: rest) =
      .ok ((a, b), rest) := by
  have close : isLayout closeRecord = false := by decide
  have next : nextMember first (Text.encode before ++ closeRecord :: rest) =
      .ok (false, closeRecord :: rest) := by
    rw [nextMember, skipLayout_spaces leading close]
    simp
  simp only [readMembers, next, bind, Except.bind, pure, Except.pure, List.drop_one,
    List.tail_cons]

theorem skipColon_spaces (s : List UInt8) :
    skipColon (Text.encode before ++ colonByte :: s) = .ok s := by
  have colon : isLayout colonByte = false := by decide
  rw [skipColon, skipLayout_spaces leading colon]
  simp

end

theorem encode_comma (s : List Char) : Text.encode (',' :: s) = commaByte :: Text.encode s := rfl

theorem length_le_separated {α : Type} {Item : List Char → α → Prop} {s : List Char} {xs : List α}
    (items : Separated Item s xs) : xs.length ≤ (Text.encode s).length + 1 := by
  induction items with
  | last => simp
  | more _ _ _ _ ih =>
    simp only [Text.encode_append, encode_comma, List.length_append, List.length_cons]
    omega

theorem readStrings_item {fuel : Nat} {first : Bool} {lead more rest : List UInt8}
    {before item : List Char} {x : String} {xs : List String} (leads : Leads first lead)
    (leading : Spaces before) (isItem : Quoted item x)
    (later : readStrings fuel false more = .ok (xs, rest)) :
    readStrings (fuel + 1) first (lead ++ (Text.encode before ++ (Text.encode item ++ more))) =
      .ok (x :: xs, rest) := by
  have read := reads_quoted isItem spaces_nil more
  cases isItem with
  | @intro s t denotes =>
    have none : Text.encode [] = [] := rfl
    rw [none, List.nil_append, encode_quoted] at read
    rw [encode_quoted]
    simp only [readStrings, nextItem_item leading leads, read, later, bind, Except.bind, pure,
      Except.pure]

theorem readStrings_separated {s : List Char} {xs : List String} (items : Separated Quoted s xs)
    {fuel : Nat} (enough : xs.length < fuel) {first : Bool} {lead : List UInt8}
    (leads : Leads first lead) (rest : List UInt8) :
    readStrings fuel first (lead ++ (Text.encode s ++ closeList :: rest)) = .ok (xs, rest) := by
  induction items generalizing fuel first lead with
  | last leading isItem trailing =>
    obtain ⟨fuel, rfl⟩ := Nat.exists_eq_add_of_le enough
    rw [List.length_singleton, Nat.add_comm]
    simp only [Text.encode_append, List.append_assoc]
    exact readStrings_item leads leading isItem (readStrings_end trailing fuel false rest)
  | @more before item after others x xs leading isItem trailing _ ih =>
    obtain ⟨fuel, rfl⟩ := Nat.exists_eq_add_one.mpr (Nat.zero_lt_of_lt enough)
    have later := ih (Nat.lt_of_succ_lt_succ enough) (.later trailing)
    simp only [Text.encode_append, encode_comma, List.append_assoc, List.cons_append,
      List.nil_append] at later ⊢
    exact readStrings_item leads leading isItem later

theorem reads_list : Reads readStringList (Bracketed .list Quoted) := by
  intro s xs written before leading rest
  have opens : isLayout openList = false := by decide
  have right : Text.encode [Frame.right .list] = [closeList] := rfl
  have start : ∀ inside, readStringList (Text.encode before ++
      (Text.encode (Frame.left .list :: (inside ++ [Frame.right .list])) ++ rest)) =
        readStrings ((Text.encode inside ++ closeList :: rest).length + 1) true
          (Text.encode inside ++ closeList :: rest) := by
    intro inside
    rw [encode_left, Text.encode_append, right, List.cons_append, List.append_assoc,
      List.singleton_append, readStringList, Frame.opening, skipLayout_spaces leading opens]
    simp only [if_pos]
  cases written with
  | empty spaces => rw [start, readStrings_end spaces]
  | @full inside _ items =>
    have few := length_le_separated items
    have enough : xs.length < (Text.encode inside ++ closeList :: rest).length + 1 := by
      simp only [List.length_append, List.length_cons]
      omega
    rw [start]
    exact readStrings_separated items enough .first rest

section

variable {α : Type} {Value : List Char → α → Prop} {default : α} {shape : Shape α} {fuel : Nat}
  {first : Bool} {lead : List UInt8} {before item : List Char} {m : Member} {a b : Option α} {x : α}
  {more : List UInt8}

theorem exists_member (leads : Leads first lead) (leading : Spaces before) (isMember : IsMember item m)
    (more : List UInt8) : ∃ s s' after,
      nextMember first (lead ++ (Text.encode before ++ (Text.encode item ++ more))) = .ok (true, s) ∧
      readText s = .ok (m.name, s') ∧
      skipColon s' = .ok (Text.encode after ++ (Text.encode m.value ++ more)) ∧ Spaces after := by
  cases isMember with
  | @intro key front after m isName leading' trailing =>
    obtain ⟨name, value⟩ := m
    cases isName with
    | @intro s t denotes =>
      have colon : ∀ t, Text.encode (':' :: t) = colonByte :: Text.encode t := fun _ => rfl
      rw [Text.encode_append, List.append_assoc, encode_quoted]
      refine ⟨_, _, after, nextMember_member leading leads _, readText_denotes denotes _, ?_, trailing⟩
      simp only [Text.encode_append, colon, List.append_assoc, List.cons_append]
      exact skipColon_spaces leading' _

variable (leads : Leads first lead) (leading : Spaces before) (isMember : IsMember item m)

include leads leading isMember

theorem readMembers_first (reads : Reads shape.readField Value) (named : m.name = shape.first)
    (value : Value m.value x) :
    readMembers shape (fuel + 1) first none b
        (lead ++ (Text.encode before ++ (Text.encode item ++ more))) =
      readMembers shape fuel false (some x) b more := by
  obtain ⟨s, s', after, next, key, behind, trailing⟩ := exists_member leads leading isMember more
  rw [readMembers, next]
  simp only [bind, Except.bind, key, if_pos named, behind, reads value trailing more,
    Option.isSome_none, Bool.false_eq_true, if_false]

theorem readMembers_second (reads : Reads shape.readField Value)
    (different : shape.first ≠ shape.second) (named : m.name = shape.second)
    (value : Value m.value x) :
    readMembers shape (fuel + 1) first a none
        (lead ++ (Text.encode before ++ (Text.encode item ++ more))) =
      readMembers shape fuel false a (some x) more := by
  obtain ⟨s, s', after, next, key, behind, trailing⟩ := exists_member leads leading isMember more
  have other : m.name ≠ shape.first := named ▸ different.symm
  rw [readMembers, next]
  simp only [bind, Except.bind, key, if_neg other, if_pos named, behind, reads value trailing more,
    Option.isSome_none, Bool.false_eq_true, if_false]

theorem readMembers_other (notFirst : m.name ≠ shape.first) (notSecond : m.name ≠ shape.second)
    (wellFormed : WellFormed .value m.value) (ends : EndsNumber more) :
    readMembers shape (fuel + 1) first a b
        (lead ++ (Text.encode before ++ (Text.encode item ++ more))) =
      readMembers shape fuel false a b more := by
  obtain ⟨s, s', after, next, key, behind, trailing⟩ := exists_member leads leading isMember more
  rw [readMembers, next]
  simp only [bind, Except.bind, key, if_neg notFirst, if_neg notSecond, behind,
    skipValue_wellFormed trailing wellFormed ends]

end

/-- What is known of a field, before some members and after them: it is given by none of them and
stays as it was, or it was not known and is given by one. -/
def Gains {α : Type} (Value : List Char → α → Prop) (members : List Member) (name : String)
    (a a' : Option α) : Prop :=
  match members.filter fun m => m.name = name with
  | [] => a' = a
  | [m] => a = none ∧ ∃ x, Value m.value x ∧ a' = some x
  | _ => False

theorem Gains.of_same {α : Type} {Value : List Char → α → Prop} {m : Member} {members : List Member}
    {name : String} {a a' : Option α} (gains : Gains Value (m :: members) name a a')
    (same : m.name = name) :
    a = none ∧ ∃ x, Value m.value x ∧ Gains Value members name (some x) a' := by
  unfold Gains at gains
  rw [List.filter_cons_of_pos (by simpa using same)] at gains
  split at gains
  · rename_i none
    cases none
  · rename_i m' only
    obtain ⟨rfl, none⟩ := List.cons.inj only
    obtain ⟨rfl, x, value, rfl⟩ := gains
    exact ⟨rfl, x, value, by rw [Gains, none]⟩
  · cases gains

theorem Gains.of_other {α : Type} {Value : List Char → α → Prop} {m : Member}
    {members : List Member} {name : String} {a a' : Option α}
    (gains : Gains Value (m :: members) name a a') (other : m.name ≠ name) :
    Gains Value members name a a' := by
  unfold Gains at gains ⊢
  rwa [List.filter_cons_of_neg (by simpa using other)] at gains

theorem exists_gains {α : Type} {Value : List Char → α → Prop} {default : α}
    {members : List Member} {name : String} {a : α} (given : Given Value default members name a) :
    ∃ a', Gains Value members name none a' ∧ a'.getD default = a := by
  unfold Given at given
  split at given
  · rename_i none
    exact ⟨.none, by rw [Gains, none], given.symm⟩
  · rename_i m only
    exact ⟨some a, by rw [Gains, only]; exact ⟨rfl, a, given, rfl⟩, rfl⟩
  · cases given

section

variable {α : Type} {Value : List Char → α → Prop} {default : α} {shape : Shape α} {first : Bool}
  {lead : List UInt8} {a b a' b' : Option α} (reads : Reads shape.readField Value)
  (different : shape.first ≠ shape.second)

include reads different

theorem readMembers_round {before item : List Char} {m : Member} {members : List Member}
    (leads : Leads first lead) (leading : Spaces before) (isMember : IsMember item m)
    (gainsFirst : Gains Value (m :: members) shape.first a a')
    (gainsSecond : Gains Value (m :: members) shape.second b b')
    (other : m.name ≠ shape.first → m.name ≠ shape.second → WellFormed .value m.value)
    {more : List UInt8} (ends : EndsNumber more) (fuel : Nat) : ∃ a₁ b₁,
      readMembers shape (fuel + 1) first a b
          (lead ++ (Text.encode before ++ (Text.encode item ++ more))) =
        readMembers shape fuel false a₁ b₁ more ∧
      Gains Value members shape.first a₁ a' ∧ Gains Value members shape.second b₁ b' := by
  by_cases isFirst : m.name = shape.first
  · obtain ⟨rfl, x, value, later⟩ := gainsFirst.of_same isFirst
    exact ⟨some x, b, readMembers_first leads leading isMember reads isFirst value, later,
      gainsSecond.of_other (isFirst ▸ different)⟩
  · by_cases isSecond : m.name = shape.second
    · obtain ⟨rfl, x, value, later⟩ := gainsSecond.of_same isSecond
      exact ⟨a, some x, readMembers_second leads leading isMember reads different isSecond value,
        gainsFirst.of_other isFirst, later⟩
    · exact ⟨a, b, readMembers_other leads leading isMember isFirst isSecond
        (other isFirst isSecond) ends, gainsFirst.of_other isFirst, gainsSecond.of_other isSecond⟩

theorem readMembers_separated {s : List Char} {members : List Member}
    (written : Separated IsMember s members) {fuel : Nat} (enough : members.length < fuel)
    (leads : Leads first lead) (gainsFirst : Gains Value members shape.first a a')
    (gainsSecond : Gains Value members shape.second b b')
    (others : ∀ m ∈ members, m.name ≠ shape.first → m.name ≠ shape.second →
      WellFormed .value m.value) (rest : List UInt8) :
    readMembers shape fuel first a b (lead ++ (Text.encode s ++ closeRecord :: rest)) =
      .ok ((a', b'), rest) := by
  induction written generalizing fuel first lead a b with
  | @last before item after m leading isMember trailing =>
    obtain ⟨fuel, rfl⟩ := Nat.exists_eq_add_of_le enough
    obtain ⟨a₁, b₁, round, ⟨⟩, ⟨⟩⟩ := readMembers_round reads different leads leading isMember
      gainsFirst gainsSecond (others m List.mem_cons_self)
      (endsNumber_spaces trailing (b := closeRecord) (by simp) rest) (fuel + 1)
    rw [List.length_singleton, Nat.add_comm]
    simp only [Text.encode_append, List.append_assoc]
    rw [round]
    exact readMembers_end trailing shape fuel false _ _ rest
  | @more before item after rest' m members leading isMember trailing _ ih =>
    obtain ⟨fuel, rfl⟩ := Nat.exists_eq_add_one.mpr (Nat.zero_lt_of_lt enough)
    obtain ⟨a₁, b₁, round, laterFirst, laterSecond⟩ := readMembers_round reads different leads
      leading isMember gainsFirst gainsSecond (others m List.mem_cons_self)
      (endsNumber_spaces trailing (b := commaByte) (by simp)
        (Text.encode rest' ++ closeRecord :: rest)) fuel
    have later := ih (Nat.lt_of_succ_lt_succ enough) (.later trailing) laterFirst laterSecond
      fun m h => others m (List.mem_cons_of_mem _ h)
    simp only [Text.encode_append, encode_comma, List.append_assoc, List.cons_append,
      List.nil_append] at later ⊢
    rw [round, later]

theorem readRecord_isRecord {s before : List Char} {x y : α}
    (isRecord : IsRecord Value default shape.first shape.second s x y) (leading : Spaces before)
    (rest : List UInt8) : ∃ a b,
      readRecord shape (Text.encode before ++ (Text.encode s ++ rest)) = .ok ((a, b), rest) ∧
      a.getD default = x ∧ b.getD default = y := by
  obtain ⟨written, givenFirst, givenSecond, others⟩ := isRecord
  rename_i members
  obtain ⟨a, gainsFirst, isFirst⟩ := exists_gains givenFirst
  obtain ⟨b, gainsSecond, isSecond⟩ := exists_gains givenSecond
  refine ⟨a, b, ?_, isFirst, isSecond⟩
  have opens : isLayout openRecord = false := by decide
  have right : Text.encode [Frame.right .record] = [closeRecord] := rfl
  have start : ∀ inside, readRecord shape (Text.encode before ++
      (Text.encode (Frame.left .record :: (inside ++ [Frame.right .record])) ++ rest)) =
        readMembers shape ((Text.encode inside ++ closeRecord :: rest).length + 1) true none none
          (Text.encode inside ++ closeRecord :: rest) := by
    intro inside
    rw [encode_left, Text.encode_append, right, List.cons_append, List.append_assoc,
      List.singleton_append, readRecord, Frame.opening, skipLayout_spaces leading opens]
    simp only [if_pos]
  cases written with
  | empty spaces =>
    rw [start, readMembers_end spaces, gainsFirst, gainsSecond]
  | @full inside _ items =>
    have few := length_le_separated items
    have enough : members.length < (Text.encode inside ++ closeRecord :: rest).length + 1 := by
      simp only [List.length_append, List.length_cons]
      omega
    rw [start]
    exact readMembers_separated reads different items enough .first gainsFirst gainsSecond others rest

end

end RouteTags.Json
