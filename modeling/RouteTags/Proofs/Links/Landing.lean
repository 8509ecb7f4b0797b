import RouteTags.Links
import RouteTags.Proofs.CrossReference.FirstWins
import RouteTags.Proofs.Locator.RoundTrip
import RouteTags.Proofs.Tag.Lines
import RouteTags.Proofs.Tag.Occurrence
import Mathlib.Data.List.Forall2

namespace RouteTags

namespace Destination

theorem colon_mem_write (scheme : Scheme) (l : Locator) : ':' ∈ (scheme.write l).toList := by
  rw [Locator.toList_write]
  exact List.mem_append_right _ (List.mem_append_left _ List.mem_cons_self)

theorem write_ne_nowhereText (scheme : Scheme) (l : Locator) : scheme.write l ≠ nowhereText := by
  intro same
  have colon := colon_mem_write scheme l
  rw [same] at colon
  exact absurd colon (by decide)

theorem text_eq_nowhereText_iff {index : CrossReference} {scheme : Scheme} {key : RouteKey} :
    (destinationOf index scheme key).text = nowhereText ↔ index.find? key = none := by
  unfold destinationOf
  cases index.find? key with
  | none => exact ⟨fun _ => rfl, fun _ => rfl⟩
  | some d =>
    constructor
    · intro same
      exact absurd same (write_ne_nowhereText scheme d.locator)
    · intro absent
      cases absent

theorem isPlace_destinationOf (index : CrossReference) (scheme : Scheme) (key : RouteKey) :
    (destinationOf index scheme key).isPlace = (index.find? key).isSome := by
  unfold destinationOf
  cases index.find? key <;> rfl

theorem destinationOf_some {index : CrossReference} {scheme : Scheme} {key : RouteKey}
    {d : Declaration} (found : index.find? key = some d) :
    destinationOf index scheme key = place (scheme.write d.locator) := by
  rw [destinationOf, found]

end Destination

theorem linksOf_eq (text : String) (index : CrossReference) (scheme : Scheme) :
    linksOf text index scheme = (Tag.find .frontend text).map fun m =>
      ⟨m.start, m.stop, Text.lineAt (Text.utf8 text) m.start, m.key,
        destinationOf index scheme m.key⟩ := by
  rw [linksOf, Tag.findNumbered_eq, List.map_map]
  rfl

structure Lands (file : Path) (text : String) (declarations : List Declaration) (scheme : Scheme)
    (link : Link) (call : Call) : Prop where
  tag : ∃ method endpoint, Tag.OccursAt .frontend text.toList method endpoint link.start link.stop ∧
    link.key = .normal (String.ofList method) (String.ofList endpoint)
  line : link.line = Text.lineAt (Text.utf8 text) link.start
  mention : call = .onLine link.key file link.line
  isPlace : link.destination.isPlace =
    ((CrossReference.ofList declarations).resolve call).isSome
  nowhere : link.destination.text = nowhereText ↔
    (CrossReference.ofList declarations).resolve call = none
  place : ∀ d, (CrossReference.ofList declarations).resolve call = some d →
    declarations.find? (fun d => d.key == call.key) = some d ∧
    link.destination.text = scheme.write d.locator ∧
    (Locator.isScheme scheme.name.toList = true → d.locator.line.isSome = true →
      d.locator.path.text ≠ "" → ¬ Locator.SlashDrive d.locator.path.text.toList →
      Locator.read link.destination.text = .ok d.locator)

theorem Locator.travels_of_isSome {l : Locator} (lined : l.line.isSome = true)
    (named : l.path.text ≠ "") (rooted : ¬ SlashDrive l.path.text.toList) : Travels l := by
  refine ⟨named, rooted, ?_⟩
  intro absent
  rw [absent] at lined
  cases lined

theorem lands_of_mem_find {text : String} {m : FoundTag} (member : m ∈ Tag.find .frontend text)
    (file : Path) (declarations : List Declaration) (scheme : Scheme) :
    Lands file text declarations scheme
      ⟨m.start, m.stop, Text.lineAt (Text.utf8 text) m.start, m.key,
        destinationOf (.ofList declarations) scheme m.key⟩
      (.onLine m.key file (Text.lineAt (Text.utf8 text) m.start)) where
  tag := by
    obtain ⟨method, endpoint, occurs, _, key⟩ := Tag.occursAt_of_mem_find member
    exact ⟨method, endpoint, occurs, key⟩
  line := rfl
  mention := rfl
  isPlace := Destination.isPlace_destinationOf _ scheme m.key
  nowhere := Destination.text_eq_nowhereText_iff
  place := by
    intro d resolved
    have found : (CrossReference.ofList declarations).find? m.key = some d := resolved
    have written : (destinationOf (.ofList declarations) scheme m.key).text =
        scheme.write d.locator := by
      rw [Destination.destinationOf_some found]
      rfl
    refine ⟨?_, written, ?_⟩
    · rw [← CrossReference.find?_ofList]
      exact found
    · intro valid lined named rooted
      have reads := Locator.read_write_of_travels valid
        (Locator.travels_of_isSome lined named rooted)
      rw [← written] at reads
      exact reads

/-- A document has a link for each frontend tag that is found in it, and one by one these are the
frontend mentions of a scan of its text: of the same route, on the same line, and a place exactly
when the call is resolved. The place is the first declaration of the key, and what is written of it
is read back as its locator. -/
theorem linksOf_lands (file : Path) (text : String) (backend : Bool)
    (declarations : List Declaration) (scheme : Scheme) :
    (linksOf text (.ofList declarations) scheme).map (fun link => (link.key, link.start, link.stop)) =
      (Tag.find .frontend text).map (fun m => (m.key, m.start, m.stop)) ∧
    List.Forall₂ (Lands file text declarations scheme)
      (linksOf text (.ofList declarations) scheme) (Tag.extract file text backend true).frontend := by
  have calls : (Tag.extract file text backend true).frontend = Tag.mentions .frontend file text := rfl
  rw [calls, linksOf_eq, Tag.mentions_eq, List.map_map]
  refine ⟨rfl, ?_⟩
  rw [List.forall₂_map_left_iff, List.forall₂_map_right_iff, List.forall₂_same]
  intro m member
  exact lands_of_mem_find member file declarations scheme

example :
    (linksOf "\n// ENDPOINTER <frontend> method: \"get\", endpoint: \"users\" "
      (.ofList [.onLine ⟨"GET", "/users"⟩ ⟨"/ws/users.ts"⟩ 4]) .standard).map
        (fun link => (link.line, link.destination.text)) = [(1, "vscode://file/ws/users.ts:4")] := by
  decide +kernel

end RouteTags
