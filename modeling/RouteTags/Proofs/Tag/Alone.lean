import RouteTags.Proofs.Tag.Occurrence
import RouteTags.Proofs.Text.Search

namespace RouteTags.Tag

def Opening (kind : TagKind) (s : List Char) : Prop :=
  ∃ beforeMarker beforeKind beforeMethod beforeValue,
    Gap beforeMarker ∧ Gap beforeKind ∧ Gap beforeMethod ∧ Gap beforeValue ∧
    s = slashes ++ beforeMarker ++ marker ++ beforeKind ++ kind.literal.toList ++ beforeMethod ++
      methodLabel ++ beforeValue

def Between (s : List Char) : Prop :=
  ∃ beforeEndpoint beforeLast, Gap beforeEndpoint ∧ Gap beforeLast ∧
    s = comma ++ beforeEndpoint ++ endpointLabel ++ beforeLast

theorem spelled_iff {kind : TagKind} {method endpoint tag : List Char} :
    Spelled kind method endpoint tag ↔ ∃ opening between,
      Opening kind opening ∧ Between between ∧ Value method ∧ Value endpoint ∧
      tag = opening ++ '"' :: (method ++ '"' :: (between ++ '"' :: (endpoint ++ ['"']))) := by
  constructor
  · rintro ⟨g₁, g₂, g₃, g₄, g₅, g₆, ⟨b₁, b₂, b₃, b₄, b₅, b₆⟩, inside₁, inside₂⟩
    refine ⟨_, _, ⟨g₁, g₂, g₃, g₄, b₁, b₂, b₃, b₄, rfl⟩, ⟨g₅, g₆, b₅, b₆, rfl⟩, inside₁, inside₂,
      ?_⟩
    simp [quote]
  · rintro ⟨_, _, ⟨g₁, g₂, g₃, g₄, b₁, b₂, b₃, b₄, rfl⟩, ⟨g₅, g₆, b₅, b₆, rfl⟩, inside₁, inside₂,
      rfl⟩
    have tag : Spelled kind method endpoint _ :=
      .tag g₁ g₂ g₃ g₄ g₅ g₆ ⟨b₁, b₂, b₃, b₄, b₅, b₆⟩ ⟨inside₁, inside₂⟩
    simpa [quote] using tag

theorem value_of_gap {s : List Char} (gap : Gap s) : Value s := by
  intro c hc
  have blank := gap c hc
  simp only [isGap, Bool.or_eq_true, beq_iff_eq] at blank
  rcases blank with rfl | rfl <;> decide

theorem value_append {s t : List Char} : Value (s ++ t) ↔ Value s ∧ Value t := by
  simp [Value, or_imp, forall_and]

theorem value_of_all {s : List Char} (all : s.all isValueChar = true) : Value s :=
  List.all_eq_true.mp all

theorem value_literal (kind : TagKind) : Value kind.literal.toList :=
  value_of_all (by cases kind <;> decide)

theorem Opening.value {kind : TagKind} {s : List Char} (opening : Opening kind s) : Value s := by
  obtain ⟨g₁, g₂, g₃, g₄, b₁, b₂, b₃, b₄, rfl⟩ := opening
  have words : Value slashes ∧ Value marker ∧ Value methodLabel :=
    ⟨value_of_all (by decide), value_of_all (by decide), value_of_all (by decide)⟩
  simp [value_append, words, value_literal, value_of_gap, b₁, b₂, b₃, b₄]

theorem Between.value {s : List Char} (between : Between s) : Value s := by
  obtain ⟨g₅, g₆, b₅, b₆, rfl⟩ := between
  have words : Value comma ∧ Value endpointLabel :=
    ⟨value_of_all (by decide), value_of_all (by decide)⟩
  simp [value_append, words, value_of_gap, b₅, b₆]

theorem quote_not_mem_of_value {s : List Char} (value : Value s) : '"' ∉ s := by
  intro member
  exact absurd (value '"' member) (by decide)

theorem value_iff_countP {s : List Char} : Value s ↔ s.countP (fun c => !isValueChar c) = 0 := by
  simp [Value, List.countP_eq_zero]

theorem countP_spelled {kind : TagKind} {method endpoint tag : List Char}
    (spelled : Spelled kind method endpoint tag) :
    tag.countP (fun c => !isValueChar c) = 4 := by
  obtain ⟨opening, between, opens, parts, inside₁, inside₂, rfl⟩ := spelled_iff.mp spelled
  have quoted : isValueChar '"' = false := by decide
  simp [List.countP_append, value_iff_countP.mp opens.value, value_iff_countP.mp parts.value,
    value_iff_countP.mp inside₁, value_iff_countP.mp inside₂, quoted]

def Word (s : List Char) : Prop := ∃ front last, s = front ++ [last] ∧ isGap last = false

theorem Word.append {t : List Char} (word : Word t) (s : List Char) : Word (s ++ t) := by
  obtain ⟨front, last, rfl, solid⟩ := word
  exact ⟨s ++ front, last, (List.append_assoc ..).symm, solid⟩

theorem word_literal (kind : TagKind) : Word kind.literal.toList :=
  ⟨("<" ++ kind.name).toList, '>', by simp [TagKind.literal], rfl⟩

theorem Word.eq_of_gaps {s t g h : List Char} (word : Word s) (word' : Word t) (blank : Gap g)
    (blank' : Gap h) (same : s ++ g = t ++ h) : s = t := by
  obtain ⟨front, last, rfl, solid⟩ := word
  obtain ⟨front', last', rfl, solid'⟩ := word'
  have taken : ∀ (front : List Char) {g : List Char} {last : Char}, isGap last = false → Gap g →
      ((front ++ [last]) ++ g).reverse.takeWhile isGap = g.reverse := by
    intro front g last solid blank
    rw [List.reverse_append, List.reverse_concat]
    exact Cursor.takeWhile_of_gap (fun c hc => blank c (List.mem_reverse.mp hc)) solid
  have gaps : g.reverse = h.reverse := by
    rw [← taken front solid blank, same, taken front' solid' blank']
  rw [List.reverse_inj.mp gaps] at same
  exact List.append_cancel_right same

theorem Word.eq_of_word {word s t g h : List Char} (ends : Word word) (blank : Gap g)
    (blank' : Gap h) (same : s ++ word ++ g = t ++ word ++ h) : s = t :=
  List.append_cancel_right ((ends.append s).eq_of_gaps (ends.append t) blank blank' same)

theorem kind_of_suffix {kind other : TagKind} {s : List Char} (ends : kind.literal.toList <:+ s)
    (ends' : other.literal.toList <:+ s) : kind = other := by
  have alone : ∀ {k l : TagKind}, k.literal.toList <:+ l.literal.toList → k = l := by
    intro k l
    cases k <;> cases l <;> decide
  rcases List.suffix_or_suffix_of_suffix ends ends' with inside | inside
  · exact alone inside
  · exact (alone inside).symm

theorem Opening.unique {kind other : TagKind} {before before' s s' : List Char}
    (opening : Opening kind s) (opening' : Opening other s') (same : before ++ s = before' ++ s') :
    before = before' ∧ kind = other := by
  obtain ⟨g₁, g₂, g₃, g₄, b₁, b₂, b₃, b₄, rfl⟩ := opening
  obtain ⟨h₁, h₂, h₃, h₄, d₁, d₂, d₃, d₄, rfl⟩ := opening'
  have slashed : Word slashes := ⟨['/'], '/', rfl, rfl⟩
  have marked : Word marker := ⟨"ENDPOINTE".toList, 'R', rfl, rfl⟩
  have labelled : Word methodLabel := ⟨"method".toList, ':', rfl, rfl⟩
  simp only [← List.append_assoc] at same
  have toKind := ((word_literal kind).append _).eq_of_gaps ((word_literal other).append _) b₃ d₃
    (labelled.eq_of_word b₄ d₄ same)
  have kinds : kind = other := by
    apply kind_of_suffix (List.suffix_append _ _)
    rw [toKind]
    exact List.suffix_append _ _
  subst kinds
  have toMarker := marked.eq_of_word b₂ d₂ (List.append_cancel_right toKind)
  exact ⟨slashed.eq_of_word b₁ d₁ toMarker, rfl⟩

theorem splitAt_spelled {before after opening between method endpoint : List Char}
    (parts : Between between) (inside : Value method) (inside' : Value endpoint) :
    Text.splitAt '"' (before ++ (opening ++ '"' :: (method ++ '"' :: (between ++ '"' ::
        (endpoint ++ ['"'])))) ++ after) =
      Text.splitAt '"' (before ++ opening) ++
        ([method, between, endpoint] ++ Text.splitAt '"' after) := by
  have alone : ∀ {s : List Char}, Value s → Text.splitAt '"' s = [s] :=
    fun value => Text.splitAt_of_not_mem (quote_not_mem_of_value value)
  have shape : before ++ (opening ++ '"' :: (method ++ '"' :: (between ++ '"' ::
      (endpoint ++ ['"'])))) ++ after = (before ++ opening) ++ '"' :: (method ++ '"' ::
        (between ++ '"' :: (endpoint ++ '"' :: after))) := by
    simp
  rw [shape]
  simp only [Text.splitAt_append_cons, alone inside, alone inside', alone parts.value]
  rfl

theorem pieces_unique {first last : List Char} {middle middle' front back : List (List Char)}
    (some : front ≠ []) (some' : back ≠ []) (long : middle.length = middle'.length)
    (same : [first] ++ (middle ++ [last]) = front ++ (middle' ++ back)) :
    front = [first] ∧ middle' = middle := by
  have lengths := congrArg List.length same
  simp only [List.length_append, List.length_singleton] at lengths
  have fronts := List.length_pos_iff.mpr some
  have backs := List.length_pos_iff.mpr some'
  obtain ⟨same, rest⟩ := List.append_inj same (by rw [List.length_singleton]; omega)
  exact ⟨same.symm, (List.append_inj rest long).1.symm⟩

/-- A text with the four quotes of a tag, and none besides, holds no other tag of either kind. -/
theorem spelled_alone {kind other : TagKind} {method endpoint method' endpoint' tag tag' before
    after before' after' : List Char} (spelled : Spelled kind method endpoint tag)
    (spelled' : Spelled other method' endpoint' tag') (quiet : '"' ∉ before) (quiet' : '"' ∉ after)
    (same : before ++ tag ++ after = before' ++ tag' ++ after') :
    kind = other ∧ method = method' ∧ endpoint = endpoint' ∧ before = before' ∧ tag = tag' := by
  obtain ⟨opening, between, opens, parts, inside₁, inside₂, rfl⟩ := spelled_iff.mp spelled
  obtain ⟨opening', between', opens', parts', inside₁', inside₂', rfl⟩ := spelled_iff.mp spelled'
  have pieces := congrArg (Text.splitAt '"') same
  have front : '"' ∉ before ++ opening := by
    simp [quiet, quote_not_mem_of_value opens.value]
  rw [splitAt_spelled parts inside₁ inside₂, splitAt_spelled parts' inside₁' inside₂',
    Text.splitAt_of_not_mem front, Text.splitAt_of_not_mem quiet'] at pieces
  have three : [method, between, endpoint].length = [method', between', endpoint'].length := rfl
  obtain ⟨cut, middle⟩ :=
    pieces_unique (Text.splitAt_ne_nil '"' _) (Text.splitAt_ne_nil '"' _) three pieces
  simp only [List.cons.injEq, and_true] at middle
  obtain ⟨rfl, rfl, rfl⟩ := middle
  have fronts := Text.eq_of_splitAt_singleton cut
  obtain ⟨rfl, rfl⟩ := opens.unique opens' fronts.symm
  obtain rfl := List.append_cancel_left fronts
  exact ⟨rfl, rfl, rfl, rfl, rfl⟩

theorem find_eq_singleton {kind : TagKind} {text : String} {method endpoint : List Char}
    {start stop : Nat} (occurs : OccursAt kind text.toList method endpoint start stop)
    (alone : ∀ m ∈ find kind text, m.start = start) : find kind text =
      [⟨kind, .normal (String.ofList method) (String.ofList endpoint), start, stop⟩] := by
  have apart : (find kind text).Pairwise fun a b => a.start < b.start ∧ a.stop ≤ b.start :=
    findFrom_pairwise kind 0 0 text.toList
  have found : FoundIn kind 0 text.toList
      ⟨kind, .normal (String.ofList method) (String.ofList endpoint), start, stop⟩ :=
    foundIn_zero_iff.mpr ⟨method, endpoint, occurs, rfl, rfl⟩
  have member : ⟨kind, .normal (String.ofList method) (String.ofList endpoint), start, stop⟩ ∈
      find kind text := by
    rcases mem_findFrom_or_inside found (Nat.zero_le start) with member | ⟨f, member, early, _⟩
    · exact member
    · exact absurd (alone f member) (Nat.ne_of_lt early)
  obtain ⟨first, rest, shape⟩ := List.exists_cons_of_ne_nil (List.ne_nil_of_mem member)
  rw [shape] at alone apart
  have none : rest = [] := by
    refine List.eq_nil_iff_forall_not_mem.mpr fun m hm => ?_
    have later := ((List.pairwise_cons.mp apart).1 m hm).1
    rw [alone m (List.mem_cons_of_mem first hm), alone first List.mem_cons_self] at later
    exact Nat.lt_irrefl start later
  rw [shape, none] at member ⊢
  rw [List.mem_singleton.mp member]

theorem find_alone {kind : TagKind} {text : String} {method endpoint before tag after : List Char}
    (spelled : Spelled kind method endpoint tag) (quiet : '"' ∉ before) (quiet' : '"' ∉ after)
    (split : text.toList = before ++ tag ++ after) :
    find kind text = [⟨kind, .normal (String.ofList method) (String.ofList endpoint),
      Text.byteLength before, Text.byteLength before + Text.byteLength tag⟩] ∧
    ∀ other, other ≠ kind → find other text = [] := by
  have same : ∀ other, ∀ m ∈ find other text, kind = other ∧ m.start = Text.byteLength before := by
    intro other m member
    obtain ⟨method', endpoint', ⟨before', tag', after', split', spelled', start, _⟩, _, _⟩ :=
      occursAt_of_mem_find member
    obtain ⟨kinds, _, _, fronts, _⟩ :=
      spelled_alone spelled spelled' quiet quiet' (split.symm.trans split')
    exact ⟨kinds, by rw [start, fronts]⟩
  constructor
  · exact find_eq_singleton ⟨before, tag, after, split, spelled, rfl, rfl⟩
      fun m member => (same kind m member).2
  · intro other differs
    exact List.eq_nil_iff_forall_not_mem.mpr fun m member => differs (same other m member).1.symm

end RouteTags.Tag
