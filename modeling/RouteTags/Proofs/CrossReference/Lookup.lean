import RouteTags.CrossReference
import RouteTags.Proofs.Route.Normal
import RouteTags.Proofs.Tag.Lines
import RouteTags.Proofs.Tag.Occurrence

namespace RouteTags

theorem Tag.normal_of_mem_mentions {kind : TagKind} {file : Path} {text : String}
    {m : Mention kind} (member : m ∈ mentions kind file text) : m.key.Normal := by
  rw [mentions_eq] at member
  obtain ⟨tag, found, rfl⟩ := List.mem_map.mp member
  obtain ⟨method, endpoint, -, -, key⟩ := occursAt_of_mem_find found
  rw [Mention.onLine, key]
  exact RouteKey.normal_normal _ _

namespace CrossReference

theorem lookup_of_normal (x : CrossReference) {key : RouteKey} (normal : key.Normal) :
    x.lookup key.method key.endpoint = x.find? key := by
  rw [lookup, normal.normal_eq]

/-- A key that is made from another's fields is that key again. Blanks around the fields and a method
in upper case make the same key. So what was read from a text is looked up alike by its fields, by its
key and as a call, in any cross-reference. -/
theorem lookups_agree :
    (∀ method endpoint, RouteKey.normal (RouteKey.normal method endpoint).method
      (RouteKey.normal method endpoint).endpoint = .normal method endpoint) ∧
    (∀ before after before' after' : String,
      (∀ c ∈ before.toList ++ after.toList ++ before'.toList ++ after'.toList,
        Text.isBlank c = true) →
      ∀ method endpoint, RouteKey.normal (before ++ method ++ after) (before' ++ endpoint ++ after') =
        .normal method endpoint) ∧
    (∀ method endpoint,
      RouteKey.normal (Text.uppercase method) endpoint = .normal method endpoint) ∧
    ∀ (x : CrossReference) (file : Path) (text : String) (backend frontend : Bool),
      (∀ d ∈ (Tag.extract file text backend frontend).backend,
        x.lookup d.key.method d.key.endpoint = x.find? d.key) ∧
      ∀ call ∈ (Tag.extract file text backend frontend).frontend,
        x.lookup call.key.method call.key.endpoint = x.find? call.key ∧
          x.resolve call = x.find? call.key := by
  refine ⟨?_, ?_, RouteKey.normal_uppercase, ?_⟩
  · exact fun method endpoint => (RouteKey.normal_normal method endpoint).normal_eq
  · intro before after before' after' blank method endpoint
    simp only [List.mem_append, or_imp, forall_and] at blank
    obtain ⟨⟨⟨left, right⟩, left'⟩, right'⟩ := blank
    exact RouteKey.normal_append_blanks left right left' right' method endpoint
  · intro x file text backend frontend
    constructor
    · intro d declared
      cases backend with
      | false => cases declared
      | true => exact x.lookup_of_normal (Tag.normal_of_mem_mentions declared)
    · intro call called
      cases frontend with
      | false => cases called
      | true => exact ⟨x.lookup_of_normal (Tag.normal_of_mem_mentions called), rfl⟩

theorem lookups_agree_sharp :
    RouteKey.normal ("\u3000" ++ "stra\u00dfe" ++ "\t") ("" ++ "a" ++ " ") =
      .normal "stra\u00dfe" "a" ∧
    ∃ call ∈ (Tag.extract ⟨"a.ts"⟩ ("// ENDPOINTER <frontend> method: \"stra\u00dfe\t\", " ++
        "endpoint: \" a\"") true true).frontend,
      call.key = ⟨"STRASSE", "/a"⟩ ∧
      (ofList [.onLine ⟨"STRASSE", "/a"⟩ ⟨"b.ts"⟩ 7]).lookup call.key.method call.key.endpoint =
        (ofList [.onLine ⟨"STRASSE", "/a"⟩ ⟨"b.ts"⟩ 7]).resolve call := by
  have blank : ∀ c ∈ "\u3000".toList ++ "\t".toList ++ "".toList ++ " ".toList,
      Text.isBlank c = true := List.all_eq_true.mp (by decide)
  have called : (Tag.extract ⟨"a.ts"⟩ ("// ENDPOINTER <frontend> method: \"stra\u00dfe\t\", " ++
      "endpoint: \" a\"") true true).frontend = [.onLine ⟨"STRASSE", "/a"⟩ ⟨"a.ts"⟩ 0] := by
    decide +kernel
  have member : Mention.onLine ⟨"STRASSE", "/a"⟩ ⟨"a.ts"⟩ 0 ∈ (Tag.extract ⟨"a.ts"⟩
      ("// ENDPOINTER <frontend> method: \"stra\u00dfe\t\", " ++ "endpoint: \" a\"")
        true true).frontend := by
    rw [called]
    exact List.mem_singleton_self _
  obtain ⟨byFields, asCall⟩ := (lookups_agree.2.2.2 _ _ _ true true).2 _ member
  exact ⟨lookups_agree.2.1 _ _ _ _ blank _ _, _, member, rfl, byFields.trans asCall.symm⟩

end CrossReference

end RouteTags
