import RouteTags.Route.Key
import RouteTags.Proofs.Text.UpperCase

namespace RouteTags.RouteKey

structure Normal (k : RouteKey) : Prop where
  methodTrimmed : Text.trim k.method.toList = k.method.toList
  methodUpper : Text.toUpper k.method.toList = k.method.toList
  endpointTrimmed : Text.trim k.endpoint.toList = k.endpoint.toList
  endpointSlashed : k.endpoint.toList.head? = some '/'

theorem toList_normal_method (method endpoint : String) :
    (normal method endpoint).method.toList = Text.toUpper (Text.trim method.toList) := by
  simp [normal, Text.uppercase, Text.trimmed]

theorem toList_slashed (endpoint : String) : (slashed endpoint).toList =
    if endpoint.toList.head? = some '/' then endpoint.toList else '/' :: endpoint.toList := by
  unfold slashed
  split
  · rfl
  · simp

theorem toList_normal_endpoint (method endpoint : String) :
    (normal method endpoint).endpoint.toList =
      if (Text.trim endpoint.toList).head? = some '/' then Text.trim endpoint.toList
      else '/' :: Text.trim endpoint.toList := by
  simp [normal, toList_slashed, Text.trimmed]

theorem trim_slash_trim (s : List Char) :
    Text.trim ('/' :: Text.trim s) = '/' :: Text.trim s := by
  apply Text.trim_eq_self (by decide)
  cases h : Text.trim s with
  | nil => simp [Text.EndsBlank]; decide
  | cons c r =>
    have solid := Text.not_endsBlank_trim s
    rw [h] at solid
    exact fun blank => solid ((Text.endsBlank_append_cons ['/'] r c).mp blank)

theorem normal_normal (method endpoint : String) : (normal method endpoint).Normal where
  methodTrimmed := by rw [toList_normal_method, Text.trim_toUpper, Text.trim_trim]
  methodUpper := by rw [toList_normal_method, Text.toUpper_toUpper]
  endpointTrimmed := by
    rw [toList_normal_endpoint]
    split
    · exact Text.trim_trim _
    · exact trim_slash_trim _
  endpointSlashed := by
    rw [toList_normal_endpoint]
    split
    · assumption
    · rfl

theorem Normal.normal_eq {k : RouteKey} (h : k.Normal) : normal k.method k.endpoint = k := by
  cases k with
  | mk method endpoint =>
    have trimmed : Text.trimmed endpoint = endpoint := by
      rw [Text.trimmed, h.endpointTrimmed, String.ofList_toList]
    have upper : Text.uppercase (Text.trimmed method) = method := by
      rw [Text.trimmed, h.methodTrimmed, String.ofList_toList, Text.uppercase, h.methodUpper,
        String.ofList_toList]
    rw [normal, trimmed, upper, slashed, if_pos h.endpointSlashed]

theorem normal_append_blanks {before after before' after' : String}
    (left : ∀ c ∈ before.toList, Text.isBlank c = true)
    (right : ∀ c ∈ after.toList, Text.isBlank c = true)
    (left' : ∀ c ∈ before'.toList, Text.isBlank c = true)
    (right' : ∀ c ∈ after'.toList, Text.isBlank c = true) (method endpoint : String) :
    normal (before ++ method ++ after) (before' ++ endpoint ++ after') = normal method endpoint := by
  simp only [normal, Text.trimmed, String.toList_append, Text.trim_append_blanks left right,
    Text.trim_append_blanks left' right']

theorem normal_uppercase (method endpoint : String) :
    normal (Text.uppercase method) endpoint = normal method endpoint := by
  have same : Text.uppercase (Text.trimmed (Text.uppercase method)) =
      Text.uppercase (Text.trimmed method) := by
    simp [Text.uppercase, Text.trimmed, Text.trim_toUpper, Text.toUpper_toUpper]
  rw [normal, same, normal]

end RouteTags.RouteKey
