import RouteTags.Session
import Mathlib.Data.List.Induction

/-! A session under any schedule, which is a list of steps in the order in which they get hold of
the session. Rescans come one at a time and publish in one step; a request for the route tree takes
four, and any number of them run between the rescans and between each other. A build that straddles
a rescan must not be kept, which rests on one fact: a snapshot that a request holds is one that was
current, so it has the current generation only if it is the current one. -/
namespace RouteTags

def Session.rescanned (s : Session) (folders : List Path) : Except GlobFault Scan → Session
  | .ok scan => s.publish folders scan
  | .error _ => s

inductive Request where
  | idle
  | missed
  | holding (snapshot : Snapshot)
  | built (snapshot : Snapshot) (tree : RouteTree)
  | answered (tree : RouteTree)

/-- One step of a request: it looks for the tree that is kept, takes the snapshot, builds, and
keeps what it built unless another snapshot was published since. -/
def Request.step (s : Session) : Request → Session × Request
  | idle =>
    match s.tree with
    | some tree => (s, answered tree)
    | none => (s, missed)
  | missed => (s, holding s.snapshot)
  | holding snapshot => (s, built snapshot snapshot.tree)
  | built snapshot tree => (s.keepTree snapshot tree, answered tree)
  | answered tree => (s, answered tree)

inductive Action where
  | rescan (folders : List Path) (outcome : Except GlobFault Scan)
  | request (r : Nat)

structure Machine where
  session : Session
  requests : Nat → Request

def Machine.act (m : Machine) : Action → Machine
  | .rescan folders outcome => { m with session := m.session.rescanned folders outcome }
  | .request r =>
    let (session, request) := (m.requests r).step m.session
    { session, requests := fun r' => if r' = r then request else m.requests r' }

def Machine.run (scanner : Scanner) (scheme : Scheme) (actions : List Action) : Machine :=
  actions.foldl act ⟨.start scanner scheme, fun _ => .idle⟩

def Action.published? : Action → Option (List Path × Scan)
  | rescan folders (.ok scan) => some (folders, scan)
  | _ => none

def published (actions : List Action) : List (List Path × Scan) :=
  actions.filterMap Action.published?

def turns (r : Nat) (actions : List Action) : Nat :=
  actions.countP fun
    | .request r' => r' == r
    | .rescan _ _ => false

namespace Machine

theorem act_rescan (m : Machine) (t : FileTree) (cwd : Location) (folders : List Path)
    (c : Config) :
    (m.act (.rescan (folders.map (t.resolve cwd))
      (m.session.scanner.outcome t cwd folders c))).session =
      (m.session.rescan t cwd folders c).toOption.getD m.session := by
  simp only [act, Session.rescan, Scanner.outcome]
  cases m.session.scanner.fault? folders c <;> rfl

theorem act_request_alone (m : Machine) {r : Nat} (idle : m.requests r = .idle) :
    ((List.replicate 4 (Action.request r)).foldl act m).session = m.session.routeTree.2 ∧
    ((List.replicate 4 (Action.request r)).foldl act m).requests r =
      .answered m.session.routeTree.1 := by
  cases kept : m.session.tree <;>
    simp [List.replicate, act, Request.step, idle, kept, Session.routeTree]

end Machine

section Schedule
open Machine

variable {scanner : Scanner} {scheme : Scheme}

theorem run_concat (actions : List Action) (a : Action) :
    run scanner scheme (actions ++ [a]) = (run scanner scheme actions).act a := by
  rw [run, List.foldl_append]
  rfl

theorem published_append (first more : List Action) :
    published (first ++ more) = published first ++ published more :=
  List.filterMap_append

def Snapshot.after (scans : List (List Path × Scan)) : Snapshot :=
  match scans.getLast? with
  | none => .initial
  | some (folders, scan) => .ofScan scans.length folders scan

theorem generation_after (scans : List (List Path × Scan)) :
    (Snapshot.after scans).generation = scans.length := by
  unfold Snapshot.after
  split
  · rename_i none
    rw [List.getLast?_eq_none_iff.mp none]
    rfl
  · rfl

theorem index_after (scans : List (List Path × Scan)) :
    (Snapshot.after scans).index = .ofList (Snapshot.after scans).backend := by
  unfold Snapshot.after
  split <;> rfl

theorem after_concat (scans : List (List Path × Scan)) (folders : List Path) (scan : Scan) :
    Snapshot.after (scans ++ [(folders, scan)]) = .ofScan (scans.length + 1) folders scan := by
  simp [Snapshot.after]

theorem Session.keepTree_snapshot (s : Session) (builtFrom : Snapshot) (tree : RouteTree) :
    (s.keepTree builtFrom tree).snapshot = s.snapshot := by
  unfold keepTree
  split <;> rfl

theorem Request.step_snapshot (s : Session) (q : Request) :
    (q.step s).1.snapshot = s.snapshot := by
  cases q with
  | idle =>
    unfold step
    cases s.tree <;> rfl
  | built snapshot tree => exact s.keepTree_snapshot snapshot tree
  | missed => rfl
  | holding snapshot => rfl
  | answered tree => rfl

theorem Request.step_tree (s : Session) (q : Request) :
    (q.step s).1.tree = s.tree ∨ ∃ snapshot tree, q = built snapshot tree ∧
      snapshot.generation = s.snapshot.generation ∧ (q.step s).1.tree = some tree := by
  cases q with
  | idle =>
    refine .inl ?_
    unfold step
    cases found : s.tree <;> exact found
  | built snapshot tree =>
    simp only [step, Session.keepTree]
    split
    · rename_i same
      exact .inr ⟨snapshot, tree, rfl, same, rfl⟩
    · exact .inl rfl
  | missed => exact .inl rfl
  | holding snapshot => exact .inl rfl
  | answered tree => exact .inl rfl

theorem snapshot_run (actions : List Action) :
    (run scanner scheme actions).session.snapshot = .after (published actions) := by
  induction actions using List.reverseRecOn with
  | nil => rfl
  | append_singleton actions a ih =>
    rw [run_concat, published_append]
    cases a with
    | request r =>
      have nothing : published [Action.request r] = [] := rfl
      rw [nothing, List.append_nil, ← ih]
      exact Request.step_snapshot _ _
    | rescan folders outcome =>
      cases outcome with
      | error fault =>
        have nothing : published [Action.rescan folders (.error fault)] = [] := rfl
        rw [nothing, List.append_nil, ← ih]
        rfl
      | ok scan =>
        simp only [act, Session.rescanned, Session.publish, ih, generation_after]
        exact (after_concat (published actions) folders scan).symm

variable (scanner scheme) in
def WasCurrent (since now : List Action) (snapshot : Snapshot) : Prop :=
  ∃ moment, since <+: moment ∧ moment <+: now ∧
    snapshot = (run scanner scheme moment).session.snapshot

variable (scanner scheme) in
def Request.Sound (since now : List Action) : Request → Prop
  | idle => True
  | missed => True
  | holding snapshot => WasCurrent scanner scheme since now snapshot
  | built snapshot tree => WasCurrent scanner scheme since now snapshot ∧ tree = snapshot.tree
  | answered tree => ∃ snapshot, WasCurrent scanner scheme since now snapshot ∧ tree = snapshot.tree

theorem WasCurrent.mono {since now later : List Action} {snapshot : Snapshot}
    (before : now <+: later) (was : WasCurrent scanner scheme since now snapshot) :
    WasCurrent scanner scheme since later snapshot := by
  obtain ⟨moment, after, past, taken⟩ := was
  exact ⟨moment, after, past.trans before, taken⟩

theorem Request.Sound.mono {since now later : List Action} {q : Request} (before : now <+: later)
    (sound : q.Sound scanner scheme since now) : q.Sound scanner scheme since later := by
  cases q with
  | idle => trivial
  | missed => trivial
  | holding snapshot => exact WasCurrent.mono before sound
  | built snapshot tree => exact ⟨WasCurrent.mono before sound.1, sound.2⟩
  | answered tree =>
    obtain ⟨snapshot, was, built⟩ := sound
    exact ⟨snapshot, WasCurrent.mono before was, built⟩

theorem WasCurrent.eq_of_generation {since now : List Action} {snapshot : Snapshot}
    (was : WasCurrent scanner scheme since now snapshot)
    (same : snapshot.generation = (run scanner scheme now).session.snapshot.generation) :
    snapshot = (run scanner scheme now).session.snapshot := by
  obtain ⟨moment, _, past, rfl⟩ := was
  simp only [snapshot_run, generation_after] at same ⊢
  have less : published moment <+: published now := past.filterMap _
  rw [less.eq_of_length same]

def Session.Fresh (s : Session) : Prop := ∀ tree, s.tree = some tree → tree = s.snapshot.tree

structure Consistent (scanner : Scanner) (scheme : Scheme) (actions : List Action) : Prop where
  fresh : (run scanner scheme actions).session.Fresh
  sound : ∀ r, ((run scanner scheme actions).requests r).Sound scanner scheme [] actions

theorem Request.Sound.step {since now : List Action} {q : Request} (before : since <+: now)
    (fresh : (run scanner scheme now).session.Fresh) (sound : q.Sound scanner scheme since now) :
    (q.step (run scanner scheme now).session).2.Sound scanner scheme since now := by
  have current : WasCurrent scanner scheme since now (run scanner scheme now).session.snapshot :=
    ⟨now, before, List.prefix_rfl, rfl⟩
  cases q with
  | idle =>
    unfold Request.step
    cases found : (run scanner scheme now).session.tree with
    | none => trivial
    | some tree => exact ⟨_, current, fresh tree found⟩
  | missed => exact current
  | holding snapshot => exact ⟨sound, rfl⟩
  | built snapshot tree => exact ⟨snapshot, sound⟩
  | answered tree => exact sound

theorem fresh_step {since now : List Action} {q : Request}
    (fresh : (run scanner scheme now).session.Fresh) (sound : q.Sound scanner scheme since now) :
    (q.step (run scanner scheme now).session).1.Fresh := by
  intro tree kept
  rw [Request.step_snapshot]
  rcases q.step_tree (run scanner scheme now).session with
    old | ⟨snapshot, new, rfl, same, found⟩
  · exact fresh tree (old ▸ kept)
  · obtain ⟨was, rfl⟩ := sound
    rw [found] at kept
    rw [← was.eq_of_generation same]
    exact (Option.some.inj kept).symm

theorem sound_concat {since now : List Action} (before : since <+: now)
    (consistent : Consistent scanner scheme now) {r : Nat}
    (sound : ((run scanner scheme now).requests r).Sound scanner scheme since now) (a : Action) :
    ((run scanner scheme (now ++ [a])).requests r).Sound scanner scheme since (now ++ [a]) := by
  have later : now <+: now ++ [a] := List.prefix_append now [a]
  rw [run_concat]
  cases a with
  | rescan folders outcome => exact sound.mono later
  | request r' =>
    by_cases own : r = r'
    · subst own
      simpa [act] using (sound.step before consistent.fresh).mono later
    · simpa [act, own] using sound.mono later

theorem consistent_run (actions : List Action) : Consistent scanner scheme actions := by
  induction actions using List.reverseRecOn with
  | nil =>
    refine ⟨?_, fun r => trivial⟩
    intro tree kept
    cases kept
  | append_singleton actions a ih =>
    refine ⟨?_, fun r => sound_concat List.nil_prefix ih (ih.sound r) a⟩
    rw [run_concat]
    cases a with
    | request r => exact fresh_step ih.fresh (ih.sound r)
    | rescan folders outcome =>
      cases outcome with
      | error fault => exact ih.fresh
      | ok scan =>
        intro tree kept
        cases kept

theorem sound_since {first : List Action} {r : Nat}
    (idle : (run scanner scheme first).requests r = .idle) (more : List Action) :
    ((run scanner scheme (first ++ more)).requests r).Sound scanner scheme first
      (first ++ more) := by
  induction more using List.reverseRecOn with
  | nil =>
    rw [List.append_nil, idle]
    trivial
  | append_singleton more a ih =>
    rw [← List.append_assoc]
    exact sound_concat (List.prefix_append first more) (consistent_run _) ih a

def Request.left : Request → Nat
  | idle => 4
  | missed => 3
  | holding _ => 2
  | built _ _ => 1
  | answered _ => 0

theorem Request.left_step (s : Session) (q : Request) : (q.step s).2.left ≤ q.left - 1 := by
  cases q with
  | idle =>
    unfold step
    cases s.tree with
    | none => exact Nat.le_refl 3
    | some tree => exact Nat.zero_le 3
  | missed => exact Nat.le_refl 2
  | holding snapshot => exact Nat.le_refl 1
  | built snapshot tree => exact Nat.le_refl 0
  | answered tree => exact Nat.le_refl 0

theorem left_run (r : Nat) (actions : List Action) :
    ((run scanner scheme actions).requests r).left ≤ 4 - turns r actions := by
  induction actions using List.reverseRecOn with
  | nil => exact Nat.le_refl 4
  | append_singleton actions a ih =>
    rw [run_concat, turns, List.countP_append, ← turns]
    cases a with
    | rescan folders outcome => simpa [act] using ih
    | request r' =>
      by_cases own : r = r'
      · subst own
        have less := Request.left_step (run scanner scheme actions).session
          ((run scanner scheme actions).requests r)
        simp only [act, if_true, List.countP_singleton, BEq.rfl]
        omega
      · simpa [act, own, Ne.symm own] using ih

theorem answered_of_left {q : Request} (ended : q.left = 0) : ∃ tree, q = .answered tree := by
  cases q with
  | answered tree => exact ⟨tree, rfl⟩
  | idle => cases ended
  | missed => cases ended
  | holding snapshot => cases ended
  | built snapshot tree => cases ended

theorem answered_current {before later : List Action} {r : Nat} {tree : RouteTree}
    (idle : (run scanner scheme before).requests r = .idle)
    (answered : (run scanner scheme (before ++ later)).requests r = .answered tree) :
    ∃ meanwhile, meanwhile <+: later ∧
      tree = (run scanner scheme (before ++ meanwhile)).session.snapshot.tree := by
  have sound := sound_since idle later
  rw [answered] at sound
  obtain ⟨snapshot, ⟨_, ⟨meanwhile, rfl⟩, past, rfl⟩, built⟩ := sound
  exact ⟨meanwhile, (List.prefix_append_right_inj before).mp past, built⟩

theorem run_failed (before later : List Action) (folders : List Path) (fault : GlobFault) :
    run scanner scheme (before ++ .rescan folders (.error fault) :: later) =
      run scanner scheme (before ++ later) := by
  rw [run, run, List.foldl_append, List.foldl_append]
  rfl

theorem snapshot_of_last (before later : List Action) (folders : List Path) (scan : Scan)
    (quiet : published later = []) :
    (run scanner scheme (before ++ .rescan folders (.ok scan) :: later)).session.snapshot =
      .ofScan ((published before).length + 1) folders scan := by
  have last : published (before ++ .rescan folders (.ok scan) :: later) =
      published before ++ [(folders, scan)] := by
    have own : published (.rescan folders (.ok scan) :: later) =
        (folders, scan) :: published later := rfl
    rw [published_append, own, quiet]
  rw [snapshot_run, last, after_concat]

theorem generation_run (actions : List Action) :
    (run scanner scheme actions).session.snapshot.generation = (published actions).length := by
  rw [snapshot_run, generation_after]

variable (scanner scheme) in
/-- Whatever the schedule, the tree that is kept is the tree of the snapshot at hand, whose index
belongs to its declarations and whose generation counts the rescans that published. It is made of
the folders and the scan of the last of them alone; a rescan that failed might as well not have
come. A request ends after four steps of its own, with the tree of a snapshot that was current
after it started, and the generation tells whether something was published in between. -/
theorem interleaving_consistent (actions : List Action) :
    (∀ tree, (run scanner scheme actions).session.tree = some tree →
      tree = .build (run scanner scheme actions).session.snapshot.backend
        (run scanner scheme actions).session.snapshot.frontend
        (run scanner scheme actions).session.snapshot.index) ∧
    (run scanner scheme actions).session.snapshot.index =
      .ofList (run scanner scheme actions).session.snapshot.backend ∧
    (run scanner scheme actions).session.snapshot.generation = (published actions).length ∧
    (∀ before folders scan later, actions = before ++ .rescan folders (.ok scan) :: later →
      published later = [] → (run scanner scheme actions).session.snapshot =
        .ofScan ((published before).length + 1) folders scan) ∧
    (∀ before folders fault later, actions = before ++ .rescan folders (.error fault) :: later →
      run scanner scheme actions = run scanner scheme (before ++ later)) ∧
    (∀ r before later tree, actions = before ++ later →
      (run scanner scheme before).requests r = .idle →
      (run scanner scheme actions).requests r = .answered tree →
      ∃ meanwhile, meanwhile <+: later ∧
        tree = (run scanner scheme (before ++ meanwhile)).session.snapshot.tree) ∧
    (∀ r, 4 ≤ turns r actions → ∃ tree, (run scanner scheme actions).requests r = .answered tree) ∧
    (∀ before later, actions = before ++ later →
      ((run scanner scheme before).session.snapshot.generation =
        (run scanner scheme actions).session.snapshot.generation ↔ published later = [])) := by
  refine ⟨(consistent_run actions).fresh, ?_, generation_run actions, ?_, ?_, ?_, ?_, ?_⟩
  · rw [snapshot_run, index_after]
  · rintro before folders scan later rfl quiet
    exact snapshot_of_last before later folders scan quiet
  · rintro before folders fault later rfl
    exact run_failed before later folders fault
  · rintro r before later tree rfl idle answered
    exact answered_current idle answered
  · intro r steps
    have less : ((run scanner scheme actions).requests r).left ≤ 4 - turns r actions :=
      left_run r actions
    exact answered_of_left (by omega)
  · rintro before later rfl
    rw [generation_run, generation_run, published_append, List.length_append,
      ← List.length_eq_zero_iff]
    omega

-- A rescan comes between the building and the keeping.
example (folders : List Path) (scan : Scan) :
    (run scanner scheme [.request 0, .request 0, .request 0, .rescan folders (.ok scan),
      .request 0]).session.tree = none :=
  rfl

end Schedule

end RouteTags
