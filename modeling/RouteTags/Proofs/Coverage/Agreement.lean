import RouteTags.Coverage.Report
import RouteTags.Proofs.Session.Filter
import RouteTags.Proofs.Tag.Joined

namespace RouteTags

namespace Checker

variable {c : Checker} {t : FileTree} {cwd root : Location} {side : Side}

def isBare (suffix : String) (file : Location × ByteArray) : Bool :=
  hasSuffix suffix file.1 &&
    (String.fromUTF8? file.2).any fun text => !Coverage.mentionsBackend text

def bareRoutes (c : Checker) (t : FileTree) (root : Location) (side : Side) :
    List (Location × ByteArray) :=
  match c.routeSuffix with
  | none => []
  | some suffix => ((c.discovery side).select t root).filter (isBare suffix)

theorem missingTags_eq : c.missingTags t root side =
    (c.bareRoutes t root side).map fun file => relativeText root file.1 := by
  unfold missingTags bareRoutes
  cases c.routeSuffix with
  | none => rfl
  | some suffix =>
    rw [← List.filterMap_eq_map, List.filterMap_filter]
    refine List.filterMap_congr ?_
    rintro ⟨l, bytes⟩ _
    unfold isBare
    dsimp only
    cases hasSuffix suffix l with
    | false => rfl
    | true =>
      cases String.fromUTF8? bytes with
      | none => rfl
      | some text => by_cases mentioned : Coverage.mentionsBackend text <;> simp [mentioned]

theorem mem_bareRoutes {file : Location × ByteArray} (member : file ∈ c.bareRoutes t root side) :
    file ∈ t.files ∧ (∃ names, file.1 = root ++ names) ∧
      ∃ text, String.fromUTF8? file.2 = some text ∧ Coverage.mentionsBackend text = false := by
  unfold bareRoutes at member
  split at member
  · cases member
  · obtain ⟨selected, bare⟩ := List.mem_filter.mp member
    obtain ⟨there, names⟩ := Scanner.exists_names_of_mem_select selected
    refine ⟨there, names, ?_⟩
    have unmentioned := (Bool.and_eq_true_iff.mp bare).2
    cases reads : String.fromUTF8? file.2 with
    | none => simp [reads] at unmentioned
    | some text => exact ⟨text, rfl, by simpa [reads] using unmentioned⟩

end Checker

example :
    let tag := "// ENDPOINTER <backend> method: \"get\", endpoint: \"/users\""
    let text := "route\r\n\n" ++ tag ++ " " ++ tag
    (Tag.findNumbered .backend text).map (·.2) = [2, 2] ∧
      (Text.lines text.toList)[2]? = some (tag ++ " " ++ tag).toList := by
  decide +kernel

end RouteTags
