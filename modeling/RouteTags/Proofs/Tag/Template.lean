import RouteTags.Proofs.Route.Normal
import RouteTags.Proofs.Tag.Alone

namespace RouteTags.Tag

theorem low_of_not_isValueChar {c : Char} (h : (!isValueChar c) = true) : c.toNat < 65 := by
  have cases : c = '"' ∨ c = '\r' ∨ c = '\n' := by
    simpa [isValueChar, or_assoc] using h
  rcases cases with rfl | rfl | rfl <;> decide

theorem value_toUpper {s : List Char} : Value (Text.toUpper s) ↔ Value s := by
  rw [value_iff_countP, value_iff_countP, Text.countP_toUpper fun c => low_of_not_isValueChar]

theorem exists_toList_template (kind : TagKind) (method endpoint : String) :
    ∃ opening between, Opening kind opening ∧ Between between ∧
      (template kind method endpoint).toList = opening ++ '"' ::
        (Text.toUpper method.toList ++ '"' :: (between ++ '"' :: (endpoint.toList ++ ['"']))) := by
  have space : Gap [' '] := by simp [Gap, isGap]
  have words : "// ".toList = slashes ++ [' '] ∧ " ".toList = [' '] ∧
      " method: \"".toList = [' '] ++ methodLabel ++ [' '] ++ quote ∧
      "\", endpoint: \"".toList =
        quote ++ comma ++ [' '] ++ endpointLabel ++ [' '] ++ quote ∧
      "\"".toList = quote := by decide
  refine ⟨slashes ++ [' '] ++ marker ++ [' '] ++ kind.literal.toList ++ [' '] ++ methodLabel ++
    [' '], comma ++ [' '] ++ endpointLabel ++ [' '],
    ⟨[' '], [' '], [' '], [' '], space, space, space, space, rfl⟩,
    ⟨[' '], [' '], space, space, rfl⟩, ?_⟩
  simp only [template, Text.uppercase, String.toList_append, String.toList_ofList, words, quote,
    List.append_assoc, List.cons_append, List.nil_append]

theorem spelled_template (kind : TagKind) {method endpoint : String}
    (inside : Value method.toList) (inside' : Value endpoint.toList) :
    Spelled kind (Text.toUpper method.toList) endpoint.toList
      (template kind method endpoint).toList := by
  obtain ⟨opening, between, opens, parts, shape⟩ := exists_toList_template kind method endpoint
  exact spelled_iff.mpr ⟨opening, between, opens, parts, value_toUpper.mpr inside, inside', shape⟩

theorem countP_template (kind : TagKind) (method endpoint : String) :
    (template kind method endpoint).toList.countP (fun c => !isValueChar c) =
      4 + method.toList.countP (fun c => !isValueChar c) +
        endpoint.toList.countP (fun c => !isValueChar c) := by
  obtain ⟨opening, between, opens, parts, shape⟩ := exists_toList_template kind method endpoint
  have quoted : isValueChar '"' = false := by decide
  rw [shape]
  simp only [List.countP_append, List.countP_cons, List.countP_nil, quoted,
    value_iff_countP.mp opens.value, value_iff_countP.mp parts.value,
    Text.countP_toUpper fun c => low_of_not_isValueChar]
  simp only [Bool.not_false, if_true]
  omega

theorem values_of_spelled_template {kind other : TagKind} {method endpoint : String}
    {method' endpoint' : List Char}
    (spelled : Spelled other method' endpoint' (template kind method endpoint).toList) :
    Value method.toList ∧ Value endpoint.toList := by
  have four := countP_spelled spelled
  rw [countP_template] at four
  exact ⟨value_iff_countP.mpr (by omega), value_iff_countP.mpr (by omega)⟩

theorem spelled_of_occursAt_whole {kind : TagKind} {s method endpoint : List Char}
    (occurs : OccursAt kind s method endpoint 0 (Text.byteLength s)) :
    Spelled kind method endpoint s := by
  have empty : ∀ {t : List Char}, Text.byteLength t = 0 → t = [] := by
    intro t none
    cases t with
    | nil => rfl
    | cons c t => exact absurd none (Nat.ne_of_gt (byteLength_pos (List.cons_ne_nil c t)))
  obtain ⟨before, tag, after, rfl, spelled, start, stop⟩ := occurs
  simp only [Text.byteLength_append] at stop
  obtain rfl := empty start.symm
  obtain rfl : after = [] := empty (by rw [Text.byteLength_nil] at stop; omega)
  simpa using spelled

theorem find_template (kind : TagKind) {method endpoint : String} (inside : Value method.toList)
    (inside' : Value endpoint.toList) (before : String) (quiet : '"' ∉ before.toList) :
    find kind (before ++ template kind method endpoint) =
      [⟨kind, .normal method endpoint, Text.byteLength before.toList,
        Text.byteLength (before ++ template kind method endpoint).toList⟩] ∧
    ∀ other, other ≠ kind → find other (before ++ template kind method endpoint) = [] := by
  have split : (before ++ template kind method endpoint).toList =
      before.toList ++ (template kind method endpoint).toList ++ [] := by
    simp
  have alone := find_alone (spelled_template kind inside inside') quiet List.not_mem_nil split
  have key : RouteKey.normal (String.ofList (Text.toUpper method.toList))
      (String.ofList endpoint.toList) = .normal method endpoint := by
    rw [String.ofList_toList]
    exact RouteKey.normal_uppercase method endpoint
  rw [key, ← Text.byteLength_append, ← String.toList_append] at alone
  exact alone

theorem value_normal {method endpoint : List Char} (inside : Value method)
    (inside' : Value endpoint) :
    Value (RouteKey.normal (String.ofList method) (String.ofList endpoint)).method.toList ∧
    Value (RouteKey.normal (String.ofList method) (String.ofList endpoint)).endpoint.toList := by
  have trimmed : ∀ {s : List Char}, Value s → Value (Text.trim s) :=
    fun value c hc => value c (Text.mem_of_mem_trim hc)
  rw [RouteKey.toList_normal_method, RouteKey.toList_normal_endpoint, String.toList_ofList,
    String.toList_ofList]
  refine ⟨value_toUpper.mpr (trimmed inside), ?_⟩
  split
  · exact trimmed inside'
  · exact List.forall_mem_cons.mpr ⟨by decide, trimmed inside'⟩

theorem value_key_of_mem_find {kind : TagKind} {text : String} {m : FoundTag}
    (member : m ∈ find kind text) :
    Value m.key.method.toList ∧ Value m.key.endpoint.toList ∧ m.key.Normal := by
  obtain ⟨method, endpoint, ⟨_, _, _, _, spelled, _, _⟩, _, key⟩ := occursAt_of_mem_find member
  obtain ⟨_, _, _, _, inside, inside', _⟩ := spelled_iff.mp spelled
  obtain ⟨methods, endpoints⟩ := value_normal inside inside'
  rw [key]
  exact ⟨methods, endpoints, RouteKey.normal_normal _ _⟩

/-- A template is found again as one tag over its whole length, with the normal form of what was
put in, exactly when method and endpoint are values. There is then no tag of the other kind in it,
and a text without quotes in front changes nothing but the place. The key of any match can be put in
and comes out. -/
theorem template_reads_back :
    (∀ kind method endpoint,
      (find kind (template kind method endpoint) =
          [⟨kind, .normal method endpoint, 0,
            Text.byteLength (template kind method endpoint).toList⟩] ↔
        Value method.toList ∧ Value endpoint.toList) ∧
      (Value method.toList ∧ Value endpoint.toList →
        (∀ other, other ≠ kind → find other (template kind method endpoint) = []) ∧
        ∀ before : String, '"' ∉ before.toList →
          find kind (before ++ template kind method endpoint) =
            [⟨kind, .normal method endpoint, Text.byteLength before.toList,
              Text.byteLength (before ++ template kind method endpoint).toList⟩])) ∧
    (∀ kind text, ∀ m ∈ find kind text,
      find m.kind (template m.kind m.key.method m.key.endpoint) =
        [⟨m.kind, m.key, 0,
          Text.byteLength (template m.kind m.key.method m.key.endpoint).toList⟩]) := by
  have whole : ∀ kind method endpoint, Value method.toList → Value endpoint.toList →
      find kind (template kind method endpoint) = [⟨kind, .normal method endpoint, 0,
        Text.byteLength (template kind method endpoint).toList⟩] ∧
      ∀ other, other ≠ kind → find other (template kind method endpoint) = [] := by
    intro kind method endpoint inside inside'
    have found := find_template kind inside inside' "" List.not_mem_nil
    rw [String.empty_append] at found
    exact found
  refine ⟨fun kind method endpoint => ⟨⟨?_, ?_⟩, ?_⟩, ?_⟩
  · intro found
    obtain ⟨method', endpoint', occurs, _, _⟩ :=
      occursAt_of_mem_find (found ▸ List.mem_singleton_self _)
    exact values_of_spelled_template (spelled_of_occursAt_whole occurs)
  · rintro ⟨inside, inside'⟩
    exact (whole kind method endpoint inside inside').1
  · rintro ⟨inside, inside'⟩
    exact ⟨(whole kind method endpoint inside inside').2,
      fun before quiet => (find_template kind inside inside' before quiet).1⟩
  · intro kind text m member
    obtain ⟨inside, inside', normal⟩ := value_key_of_mem_find member
    have found := (whole m.kind m.key.method m.key.endpoint inside inside').1
    rwa [normal.normal_eq] at found

example : find .backend (template .backend "get" "/users\n") = [] ∧
    (find .backend (template .backend " stra\u00dfe" "users ")).map (·.key) =
      [⟨"STRASSE", "/users"⟩] := by
  decide +kernel

end RouteTags.Tag
