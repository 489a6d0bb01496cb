import Retrace.Proofs.History

/-!
# Replaying a walk

As long as its graph stays as it is, a session stands where the number of its moves says. However
it came there, by single steps, by steps over, by steps back or from the end, it is what that many
steps make of the start of its walk (`IsReplay`). A step and a step back keep this, since each is
the inverse of the other away from the ends of the walk (`Traced.stepBack_step`,
`IsReplay.eq_step`), and every command that moves the walk is made of them. The main statement is
`run_moves_eq_iterate_step`.
-/
namespace Retrace.Session

/-- Whether a command moves the walk and leaves the graph alone. -/
def Command.isMove : Command → Bool
  | .step | .stepBack | .stepN _ | .stepBackN _ | .stepOver | .continueToEnd | .rewind
  | .reset => true
  | .disableKind _ | .disableTo _ | .disableIf _ | .addEntity _ | .addEvent .. => false

/-- Sessions whose graph is the one that they had when their log was last empty. -/
inductive Settled : Session → Prop
  /-- The log is empty now. -/
  | start {session : Session} : session.Reachable → session.isAtStart = true → Settled session
  /-- The log was empty before a command that left the graph as it was. -/
  | apply {session : Session} (command : Command) : Settled session →
      (session.apply command).1.graph = session.graph → Settled (session.apply command).1

/-- Commands make all of these sessions. -/
theorem Settled.reachable {session : Session} (settled : session.Settled) : session.Reachable := by
  induction settled with
  | start reachable _ => exact reachable
  | apply command _ _ reachable => exact reachable.apply command

/-! ## Commands that move the walk -/

/-- Whether an elementary change moves the walk and leaves the graph alone. -/
def Change.isMove : Change → Bool
  | .step | .stepBack | .reset => true
  | .edit _ => false

/-- A command moves the walk by elementary changes that do, or it is an edit of the graph. -/
theorem changes_isMove_or_edit (session : Session) (command : Command) :
    (∀ change ∈ session.changes command, change.isMove = true) ∨
      (command.isMove = false ∧ ∃ edit, session.changes command = [.edit edit]) := by
  have repeated (count : Nat) (change : Change) (moves : change.isMove = true) :
      ∀ other ∈ List.replicate count change, other.isMove = true := by
    intro other listed
    rw [List.eq_of_mem_replicate listed]
    exact moves
  cases command with
  | step | stepBack | reset => simp [changes, Change.isMove]
  | stepN | stepOver | continueToEnd => exact .inl (repeated _ .step rfl)
  | stepBackN | rewind => exact .inl (repeated _ .stepBack rfl)
  | disableKind | disableTo | disableIf | addEntity | addEvent => exact .inr ⟨rfl, _, rfl⟩

/-- A move leaves the graph. -/
theorem graph_change_of_isMove (session : Session) {change : Change}
    (moves : change.isMove = true) : (session.change change).graph = session.graph := by
  cases change with
  | step => exact graph_step session
  | stepBack => exact graph_stepBack session
  | reset => rfl
  | edit edit => simp [Change.isMove] at moves

/-- So do moves one after another. -/
theorem graph_foldl_change (session : Session) {changes : List Change}
    (moves : ∀ change ∈ changes, change.isMove = true) :
    (changes.foldl Session.change session).graph = session.graph := by
  induction changes generalizing session with
  | nil => rfl
  | cons change rest ih =>
    obtain ⟨first, rest⟩ := List.forall_mem_cons.mp moves
    rw [List.foldl_cons, ih _ rest]
    exact graph_change_of_isMove session first

/-- A command that moves the walk leaves the graph. -/
theorem graph_apply_of_isMove (session : Session) {command : Command}
    (moves : command.isMove = true) : (session.apply command).1.graph = session.graph := by
  rw [← foldl_changes]
  rcases changes_isMove_or_edit session command with changes | ⟨edits, _⟩
  · exact graph_foldl_change session changes
  · rw [moves] at edits
    contradiction

/-- An edit that leaves the graph as it is changes nothing. -/
theorem edit_eq_self {session : Session} {edit : Edit}
    (same : (session.edit edit).graph = session.graph) : session.edit edit = session := by
  cases edit with
  | addEntity name =>
    have sizes := congrArg Graph.numEntities same
    simp [Session.edit, addEntity] at sizes
  | addEvent source target kind location =>
    have sizes := congrArg Graph.numEvents same
    simp only [Session.edit, addEvent?, Graph.addEvent?] at sizes ⊢
    split
    · rfl
    · rename_i known
      simp [known, Except.map, Except.toOption] at sizes
  | disable condition =>
    have graph : (session.graph.disableIf condition).1 = session.graph := same
    simp [Session.edit, disableIf, graph]

/-! ## Steps from the start -/

/-- A session that is what as many steps as it has moves make of the start of its walk. -/
def IsReplay (session : Session) : Prop := session = step^[session.steps] session.reset

/-- Steps make no more moves than there are steps. -/
theorem steps_iterate_step_le (session : Session) (count : Nat) :
    (step^[count] session).steps ≤ session.steps + count := by
  induction count generalizing session with
  | zero => exact Nat.le_refl _
  | succ count ih =>
    have first : session.step.steps ≤ session.steps + 1 := by
      unfold step
      split
      · exact Nat.le_succ _
      · exact Nat.le_refl _
    have rest := ih session.step
    rw [Function.iterate_succ_apply]
    omega

/-- A step leaves the result. -/
@[simp] theorem result_step (session : Session) : session.step.result = session.result := by
  unfold step
  split <;> rfl

/-- A traced session is traced after any number of steps. -/
theorem Traced.iterate_step {session : Session} {past : List Session}
    (traced : Traced session past) (count : Nat) :
    ∃ later, Traced (Session.step^[count] session) later := by
  induction count generalizing session past with
  | zero => exact ⟨past, traced⟩
  | succ count ih => exact ih traced.step

/-- A step leaves the start of the walk as it is. -/
theorem reset_step (session : Session) : session.step.reset = session.reset := by
  simp only [reset, graph_step, result_step]

/-- A change leaves the result. -/
theorem result_change (session : Session) (change : Change) :
    (session.change change).result = session.result := by
  cases change with
  | step => exact result_step session
  | stepBack => exact result_stepBack session
  | reset => rfl
  | edit edit =>
    cases edit with
    | addEntity => rfl
    | disable => rfl
    | addEvent source target kind location =>
      simp only [Session.change, edit, addEvent?]
      cases session.graph.addEvent? source target kind location <;> rfl

/-- A command leaves the result. -/
@[simp] theorem result_apply (session : Session) (command : Command) :
    (session.apply command).1.result = session.result := by
  rw [← foldl_changes]
  induction session.changes command generalizing session with
  | nil => rfl
  | cons change rest ih => exact (ih _).trans (result_change session change)

/-- A step back takes the last step back. -/
theorem Traced.stepBack_step {session : Session} {past : List Session}
    (traced : Traced session past) (unfinished : session.isFinished = false) :
    session.step.stepBack = session := by
  have wellFormed : session.step.graph.WellFormed := by
    rw [graph_step]
    exact traced.wellFormed
  have back := traced.stepBack_eq unfinished (.refl wellFormed)
  rw [graph_step, Nat.sub_self, Walk.growBy_zero] at back
  rw [back, result_step]

namespace IsReplay

variable {session : Session} {past : List Session}

/-- At its start, a session has taken no steps. -/
theorem of_isAtStart (traced : Traced session past) (start : session.isAtStart = true) :
    session.IsReplay := by
  cases traced with
  | start _ _ log walk =>
    have none : session.steps = 0 := by simp [steps, log]
    have same : session.reset = session := by
      rw [reset, ← walk, ← log]
    rw [IsReplay, none, Function.iterate_zero_apply, same]
  | moved _ unfinished revision =>
    rw [isAtStart, revision.log_eq, log_step unfinished] at start
    contradiction

/-- Away from its start, a session is one step from a session that can step. -/
theorem eq_step (traced : Traced session past) (replay : session.IsReplay)
    (moved : session.isAtStart = false) :
    ∃ earlier others, Traced earlier others ∧ earlier.IsReplay ∧ earlier.isFinished = false ∧
      earlier.step = session := by
  obtain ⟨count, steps⟩ : ∃ count, session.steps = count + 1 := by
    refine Nat.exists_eq_add_one.mpr (List.length_pos_iff.mpr ?_)
    simpa [isAtStart] using moved
  obtain ⟨others, earlier⟩ := traced.reset.iterate_step count
  have last : (step^[count] session.reset).step = session := by
    rw [IsReplay, steps, Function.iterate_succ_apply'] at replay
    exact replay.symm
  have unfinished : (step^[count] session.reset).isFinished = false := by
    cases finished : (step^[count] session.reset).isFinished with
    | false => rfl
    | true =>
      have few := steps_iterate_step_le session.reset count
      have stays : (step^[count] session.reset).step = step^[count] session.reset := by
        simp [step, finished]
      rw [← stays, last, steps] at few
      have none : session.reset.steps = 0 := rfl
      omega
  refine ⟨step^[count] session.reset, others, earlier, ?_, unfinished, last⟩
  have made : (step^[count] session.reset).steps = count := by
    have log := congrArg List.length (log_step unfinished)
    rw [last, List.length_cons] at log
    have : session.log.length = count + 1 := steps
    rw [Session.steps]
    omega
  have same : (step^[count] session.reset).reset = session.reset := by
    rw [← reset_step, last]
  rw [IsReplay, made, same]

/-- A step away from the end takes the last step back again. -/
theorem step_stepBack (traced : Traced session past) (replay : session.IsReplay)
    (moved : session.isAtStart = false) : session.stepBack.step = session := by
  obtain ⟨earlier, _, before, _, unfinished, rfl⟩ := replay.eq_step traced moved
  rw [before.stepBack_step unfinished]

/-- An elementary change that leaves the graph as it is keeps the position that of steps alone. -/
theorem change (traced : Traced session past) (replay : session.IsReplay) {change : Change}
    (same : (session.change change).graph = session.graph) : (session.change change).IsReplay := by
  cases change with
  | step =>
    cases finished : session.isFinished with
    | true =>
      have stays : session.change .step = session := by simp [Session.change, step, finished]
      rw [stays]
      exact replay
    | false =>
      have made : session.step.steps = session.steps + 1 := congrArg List.length (log_step finished)
      show session.step = step^[session.step.steps] session.step.reset
      rw [made, reset_step, Function.iterate_succ_apply', ← replay]
  | stepBack =>
    cases start : session.isAtStart with
    | true =>
      have stays : session.change .stepBack = session := by
        simp [Session.change, stepBack, List.isEmpty_iff.mp start]
      rw [stays]
      exact replay
    | false =>
      obtain ⟨earlier, _, before, made, unfinished, rfl⟩ := replay.eq_step traced start
      show earlier.step.stepBack.IsReplay
      rw [before.stepBack_step unfinished]
      exact made
  | reset => exact of_isAtStart traced.reset rfl
  | edit edit =>
    have stays : session.change (.edit edit) = session := edit_eq_self same
    rw [stays]
    exact replay

/-- A replay is one after any moves. -/
theorem foldl_change (traced : Traced session past) (replay : session.IsReplay)
    {changes : List Change} (moves : ∀ change ∈ changes, change.isMove = true) :
    (changes.foldl Session.change session).IsReplay := by
  induction changes generalizing session past with
  | nil => exact replay
  | cons first rest ih =>
    obtain ⟨move, moves⟩ := List.forall_mem_cons.mp moves
    have recorded := @Traced.change ⟨session, past⟩ traced first
    exact ih recorded (replay.change traced (graph_change_of_isMove session move)) moves

/-- A command that leaves the graph as it is does so, too: it is one edit, or moves only. -/
theorem apply (traced : Traced session past) (replay : session.IsReplay) {command : Command}
    (same : (session.apply command).1.graph = session.graph) :
    (session.apply command).1.IsReplay := by
  rw [← foldl_changes] at same ⊢
  rcases changes_isMove_or_edit session command with moves | ⟨_, edit, single⟩
  · exact replay.foldl_change traced moves
  · rw [single, List.foldl_cons, List.foldl_nil] at same ⊢
    exact replay.change traced same

end IsReplay

namespace Settled

variable {session : Session}

/-- In a settled graph, steps alone make every position. -/
theorem isReplay (settled : session.Settled) : session.IsReplay := by
  induction settled with
  | start reachable start =>
    obtain ⟨_, traced⟩ := reachable.traced
    exact .of_isAtStart traced start
  | apply command settled same replay =>
    obtain ⟨_, traced⟩ := settled.reachable.traced
    exact replay.apply traced same

/-- Commands that move the walk leave the graph settled and as it is. -/
theorem run (settled : session.Settled) {moves : List Command}
    (move : ∀ command ∈ moves, command.isMove = true) :
    (session.run moves).Settled ∧ (session.run moves).graph = session.graph := by
  induction moves generalizing session with
  | nil => exact ⟨settled, rfl⟩
  | cons command rest ih =>
    obtain ⟨first, move⟩ := List.forall_mem_cons.mp move
    have same := graph_apply_of_isMove session first
    obtain ⟨settled, graph⟩ := ih (settled.apply command same) move
    exact ⟨settled, graph.trans same⟩

end Settled

/-- Commands leave the result. -/
@[simp] theorem result_run (session : Session) (commands : List Command) :
    (session.run commands).result = session.result := by
  induction commands generalizing session with
  | nil => rfl
  | cons command rest ih => exact (ih _).trans (result_apply session command)

/-- While the graph is the one with which the log was last empty, commands that move the walk, in
any order, leave the session that as many steps as there are moves in its log make of a fresh
session on that graph. So two runs of such commands that end with equally many moves end in the same
position; away from the start, a step takes a step back back, and away from the end, a step back
takes a step back. -/
theorem run_moves_eq_iterate_step {session : Session} (settled : session.Settled) :
    (∀ moves : List Command, (∀ move ∈ moves, move.isMove = true) →
      let after := session.run moves
      after.Settled ∧ after.graph = session.graph ∧
        after = step^[after.steps] (ofGraph session.graph session.result)) ∧
    (∀ first second : List Command, (∀ move ∈ first ++ second, move.isMove = true) →
      (session.run first).steps = (session.run second).steps →
        session.run first = session.run second) ∧
    (session.isAtStart = false → session.stepBack.step = session) ∧
    (session.isFinished = false → session.step.stepBack = session) := by
  have replayed (moves : List Command) (move : ∀ command ∈ moves, command.isMove = true) :
      (session.run moves).Settled ∧ (session.run moves).graph = session.graph ∧
        session.run moves =
          step^[(session.run moves).steps] (ofGraph session.graph session.result) := by
    obtain ⟨after, graph⟩ := settled.run move
    refine ⟨after, graph, ?_⟩
    have replay := after.isReplay
    rw [IsReplay, reset, graph, result_run] at replay
    exact replay
  obtain ⟨_, traced⟩ := settled.reachable.traced
  refine ⟨replayed, fun first second move same => ?_, settled.isReplay.step_stepBack traced,
    traced.stepBack_step⟩
  obtain ⟨moveFirst, moveSecond⟩ := List.forall_mem_append.mp move
  rw [(replayed first moveFirst).2.2, same, ← (replayed second moveSecond).2.2]

/-- A walk that is filtered in its middle and rewound is settled again: steps over, back and to the
end leave it where one step from the start does. -/
theorem run_moves_eq_iterate_step_filtered :
    let commands : List Command :=
      [.addEntity "a", .addEvent 0 1 .templateInstantiation none,
        .addEvent 1 0 .nonTemplateType none, .addEvent 1 1 .memoization none,
        .addEvent 0 1 .memoization none, .step, .disableKind .nonTemplateType, .rewind]
    let session := ((Session.new "root" "int").run commands).run [.stepN 2]
    let moves : List Command := [.stepOver, .stepBack, .continueToEnd, .stepBackN 3]
    session.Settled ∧ session.currentEvent? = some 2 ∧ (session.run moves).steps = 1 ∧
      session.run moves = (ofGraph session.graph session.result).step ∧
      session.run moves = session.run [.reset, .step] ∧
      session.stepBack.step = session ∧ session.step.stepBack = session := by
  intro commands session moves
  have reachable : ((Session.new "root" "int").run commands).Reachable :=
    ⟨"root", "int", commands, rfl⟩
  have settled : session.Settled :=
    (Settled.start reachable (by decide)).apply (.stepN 2) (by decide)
  have one : (session.run moves).steps = 1 := by decide
  have alike : (session.run [.reset, .step]).steps = 1 := by decide
  obtain ⟨replayed, same, stepBack, step⟩ := run_moves_eq_iterate_step settled
  refine ⟨settled, by decide, one, ?_, ?_, stepBack (by decide), step (by decide)⟩
  · have after := (replayed moves (by decide)).2.2
    rw [one, Function.iterate_one] at after
    exact after
  · exact same moves [.reset, .step] (by decide) (one.trans alike.symm)

end Retrace.Session
