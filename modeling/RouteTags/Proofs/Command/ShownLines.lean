import RouteTags.Proofs.Session.Views
import RouteTags.Proofs.Tree.Outline

namespace RouteTags

theorem Mention.description_eq_iff {call : Call} {line : UInt32}
    (placed : call.locator.line = some line) :
    call.outline.map Item.description =
        some (call.locator.shownName ++ ":" ++ toString (line.toNat + 1)) ↔
      line ≠ lastLine := by
  constructor
  · rintro shown rfl
    rw [outline_eq_none_iff.mpr placed] at shown
    cases shown
  · intro other
    rw [outline, RouteNode.itemOver, RouteNode.description, Locator.describe_of_ne placed other]
    rfl

namespace Command

theorem mentionLine_eq_none_iff {kind : TagKind} {m : Mention kind} :
    mentionLine m = none ↔ m.locator.line = some lastLine := by
  rw [mentionLine, Option.map_eq_none_iff]
  cases m.locator.line with
  | none => simp [shownLine]
  | some line =>
    rw [shownLine, Option.map_eq_none_iff, Option.some.injEq]
    constructor
    · intro missing
      by_contra other
      rw [(oneBased_of_ne other).1] at missing
      cases missing
    · rintro rfl
      exact oneBased_lastLine

theorem mentionLine_eq_iff {kind : TagKind} {m : Mention kind} {line : UInt32}
    (placed : m.locator.line = some line) :
    mentionLine m = some ("  " ++ m.key.display ++ " at " ++ m.file.text ++ ":" ++
      toString (line.toNat + 1)) ↔ line ≠ lastLine := by
  constructor
  · rintro shown rfl
    rw [mentionLine_eq_none_iff.mpr placed] at shown
    cases shown
  · intro other
    obtain ⟨counted, number⟩ := oneBased_of_ne other
    simp only [mentionLine, placed, shownLine, counted, Option.map_some, number]

theorem suffix_block (heading : String) (lines : List (Option String)) :
    lines <:+ block heading lines := by
  unfold block
  split
  · rename_i none
    rw [List.isEmpty_iff.mp none]
  · exact List.suffix_cons _ lines

theorem none_mem_block_iff {heading : String} {lines : List (Option String)} :
    none ∈ block heading lines ↔ none ∈ lines := by
  unfold block
  split
  · rename_i empty
    rw [List.isEmpty_iff.mp empty]
  · simp

theorem mentions_infix_reportLines (r : Report) :
    r.unresolved.map mentionLine <:+: reportLines r ∧
    r.duplicates.map mentionLine <:+: reportLines r := by
  have calls := suffix_block "Frontend calls with no backend route:" (r.unresolved.map mentionLine)
  have declarations := suffix_block "Duplicate backend declarations (first one wins):"
    (r.duplicates.map mentionLine)
  unfold reportLines
  constructor
  · rw [List.append_assoc]
    exact (calls.trans (List.suffix_append _ _)).isInfix.trans (List.prefix_append _ _).isInfix
  · exact (declarations.trans (List.suffix_append _ _)).isInfix.trans
      (List.prefix_append _ _).isInfix

theorem none_mem_reportLines_iff {r : Report} : none ∈ reportLines r ↔
    (∃ call ∈ r.unresolved, call.locator.line = some lastLine) ∨
      ∃ d ∈ r.duplicates, d.locator.line = some lastLine := by
  have told : ∀ {α : Type} (tell : α → String) (xs : List α),
      none ∉ xs.map fun x => some (tell x) := by
    intro α tell xs member
    obtain ⟨x, -, missing⟩ := List.mem_map.mp member
    cases missing
  have mentions : ∀ {kind : TagKind} (ms : List (Mention kind)),
      none ∈ ms.map mentionLine ↔ ∃ m ∈ ms, m.locator.line = some lastLine := by
    intro kind ms
    simp only [List.mem_map, mentionLine_eq_none_iff]
  simp only [reportLines, List.mem_append, none_mem_block_iff, told, false_or, mentions,
    List.mem_singleton, reduceCtorEq, or_false]

theorem replyOf_check_eq_panic_iff {r : Report} : (replyOf false (.ok (.check r))).code = 101 ↔
    none ∈ reportLines r := by
  have lines : (Result.check r).lines = reportLines r := rfl
  have all : (reportLines r).all Option.isSome = true ↔ none ∉ reportLines r := by
    rw [List.all_eq_true]
    constructor
    · intro each member
      cases each none member
    · intro whole line member
      cases line with
      | none => exact absurd member whole
      | some text => rfl
  rw [replyOf]
  simp only [Bool.false_eq_true, if_false, lines, all]
  split
  · rename_i whole
    refine iff_of_false ?_ whole
    cases (Result.check r).succeeds <;> simp
  · rename_i missing
    exact iff_of_true rfl (not_not.mp missing)

end Command

/-- There is an outline unless a call with a declared key is on the last line that a locator can
name, and then its call items are these calls. A call on a line has a row with the exact number of
the line, and its item, and its line in a report, show this number unless the line is the last. A
report breaks off at a mention on that line, and at no other. -/
theorem shown_lines_exact_iff (backend : List Declaration) (frontend : List Call)
    (index : CrossReference) (scheme : Scheme) :
    ((RouteTree.build backend frontend index).outline = none ↔ ∃ call ∈ frontend,
      call.key ∈ backend.map Mention.key ∧ call.locator.line = some lastLine) ∧
    (∀ items, (RouteTree.build backend frontend index).outline = some items →
      (((Item.preorderOf items).filter Item.isCall).map some).Perm
        ((frontend.filter fun call => call.key ∈ backend.map Mention.key).map Mention.outline)) ∧
    (∀ (n : Nat) (call : Call) (line : UInt32), frontend[n]? = some call →
      call.locator.line = some line →
      ∃ row, (Command.callRows scheme index false frontend)[n]? = some row ∧
        row.line = line.toNat + 1 ∧
        (call.outline.map Item.description =
            some (call.locator.shownName ++ ":" ++ toString row.line) ↔ line ≠ lastLine)) ∧
    ∀ r : Report,
      r.unresolved.map Command.mentionLine <:+: Command.reportLines r ∧
      r.duplicates.map Command.mentionLine <:+: Command.reportLines r ∧
      (∀ (kind : TagKind) (m : Mention kind) (line : UInt32), m.locator.line = some line →
        (Command.mentionLine m = some ("  " ++ m.key.display ++ " at " ++ m.file.text ++ ":" ++
          toString (line.toNat + 1)) ↔ line ≠ lastLine)) ∧
      ((Command.replyOf false (.ok (.check r))).code = 101 ↔
        (∃ call ∈ r.unresolved, call.locator.line = some lastLine) ∨
          ∃ d ∈ r.duplicates, d.locator.line = some lastLine) := by
  have calls := leafCalls_perm backend frontend index
  refine ⟨?_, ?_, ?_, ?_⟩
  · have members : ∀ call, (∃ leaf ∈ (RouteTree.build backend frontend index).leaves,
        call ∈ leaf.calls) ↔ call ∈ frontend ∧ call.key ∈ backend.map Mention.key := by
      intro call
      rw [← List.mem_flatMap, calls.mem_iff, List.mem_filter, decide_eq_true_iff]
    rw [RouteTree.outline_eq_none_iff]
    constructor
    · rintro ⟨leaf, listed, call, here, last⟩
      obtain ⟨known, declared⟩ := (members call).mp ⟨leaf, listed, here⟩
      exact ⟨call, known, declared, last⟩
    · rintro ⟨call, known, declared, last⟩
      obtain ⟨leaf, listed, here⟩ := (members call).mpr ⟨known, declared⟩
      exact ⟨leaf, listed, call, here, last⟩
  · intro items made
    rw [RouteTree.calls_preorderOf made]
    exact calls.map Mention.outline
  · intro n call line made placed
    refine ⟨_, by rw [Command.callRows_all, List.getElem?_map, made, Option.map_some], ?_⟩
    rw [placed]
    exact ⟨rfl, Mention.description_eq_iff placed⟩
  · intro r
    obtain ⟨unresolved, duplicates⟩ := Command.mentions_infix_reportLines r
    exact ⟨unresolved, duplicates, fun _ _ _ placed => Command.mentionLine_eq_iff placed,
      Command.replyOf_check_eq_panic_iff.trans Command.none_mem_reportLines_iff⟩

theorem shown_lines_exact_nearLast :
    (4294967294 : UInt32) ≠ lastLine ∧
    (Mention.outline (.onLine ⟨"GET", "/users"⟩ ⟨"/ws/web.ts"⟩ 4294967294)).map Item.description =
      some "web.ts:4294967295" := by
  have other : (4294967294 : UInt32) ≠ lastLine := by decide
  have digits : Locator.shownName ⟨⟨"/ws/web.ts"⟩, some 4294967294⟩ ++ ":" ++
      toString ((4294967294 : UInt32).toNat + 1) = "web.ts:4294967295" := by decide +kernel
  obtain ⟨-, -, exact, -⟩ := shown_lines_exact_iff [.onLine ⟨"GET", "/users"⟩ ⟨"/ws/api.ts"⟩ 0]
    [.onLine ⟨"GET", "/users"⟩ ⟨"/ws/web.ts"⟩ 4294967294] .empty .standard
  obtain ⟨row, -, number, shown⟩ := exact 0 _ 4294967294 rfl rfl
  have described := shown.mpr other
  rw [number] at described
  exact ⟨other, described.trans (congrArg some digits)⟩

theorem outline_overflows_lastLine :
    let get : RouteKey := ⟨"GET", "/users"⟩
    let backend : List Declaration := [.onLine get ⟨"/ws/api.ts"⟩ 0]
    let frontend : List Call := [.onLine get ⟨"/ws/web.ts"⟩ lastLine]
    (RouteTree.build backend frontend (.ofList backend)).outline = none ∧
    (Command.callRows .standard (.ofList backend) false frontend).map Command.CallRow.line =
      [4294967296] ∧
    (Command.replyOf false (.ok (.check ⟨[], [], frontend, []⟩))).code = 101 := by
  decide +kernel

end RouteTags
