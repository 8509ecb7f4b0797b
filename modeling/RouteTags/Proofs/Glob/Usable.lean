import RouteTags.Glob.Set
import RouteTags.Proofs.Glob.Reading

namespace RouteTags

def Globs.Usable (set : Globs) : Prop :=
  ∀ g ∈ set, g.form = .extendedPattern ∨ g.form = .pattern → g.isUsable = true

theorem Globs.fault?_eq_none_iff {set : Globs} : set.fault? = none ↔ set.Usable := by
  have parts : set.Usable ↔ (∀ g ∈ set, g.form = .extendedPattern → g.isUsable = true) ∧
      ∀ g ∈ set, g.form = .pattern → g.isUsable = true := by
    constructor
    · exact fun h => ⟨fun g hg form => h g hg (.inl form), fun g hg form => h g hg (.inr form)⟩
    · rintro ⟨first, second⟩ g hg (form | form)
      · exact first g hg form
      · exact second g hg form
  have all : ∀ form : GlobForm, (∀ g ∈ set, g.form = form → g.isUsable = true) ↔
      ∀ g ∈ set.filter (fun g => g.form = form), g.isUsable = true := by
    intro form
    simp only [List.mem_filter, decide_eq_true_eq, and_imp]
  rw [parts, all, all, fault?]
  cases found : (set.filter fun g => g.form = .extendedPattern).find? fun g => !g.isUsable with
  | some g =>
    have member := List.mem_of_find?_eq_some found
    have spoiled : g.isUsable = false := by simpa using List.find?_some found
    simp only [reduceCtorEq, false_iff]
    rintro ⟨first, _⟩
    rw [first g member] at spoiled
    cases spoiled
  | none =>
    have first : ∀ g ∈ set.filter (fun g => g.form = .extendedPattern), g.isUsable = true := by
      intro g hg
      simpa using List.find?_eq_none.mp found g hg
    rw [and_iff_right first, Option.map_eq_none_iff, List.findIdx?_eq_none_iff]
    simp

namespace Glob

theorem listHeight_literally (bound : Bool) (s : List Char) (ts : List Token) :
    Token.listHeight bound (Token.literally s ++ ts) = Token.listHeight bound ts := by
  rw [Token.literally]
  induction Text.encode s with
  | nil => rfl
  | cons b bs ih =>
    rw [List.map_cons, List.cons_append, Token.listHeight, ih, Token.height, Nat.zero_max]

theorem listHeight_plain (bound : Bool) (s : List Char) :
    Token.listHeight bound (Token.literally s) = 0 := by
  have alone := listHeight_literally bound s []
  rwa [List.append_nil] at alone

end Glob

end RouteTags
