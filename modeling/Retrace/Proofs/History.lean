import Mathlib.Logic.Function.Iterate
import Retrace.Proofs.Undo
import Retrace.Session.Command

/-!
# Histories of sessions

Every command is a sequence of elementary changes: a step, a step back, a reset, or an edit of the
graph. `Recorded` carries a session through them together with the session from which each
outstanding move was made. `Traced` is the invariant of such a record: a session is the start of a
walk, or it is a step from the newest of those sessions, in a graph that was edited since. It holds
after every command, so that an induction on it goes forward only and never meets a step back.

The main statement is `stepBackN_restores`: stepping back finds the recorded sessions again, up to
the entities that were added since, and rewinding is resetting.
-/
namespace Retrace.Session

/-! ## Elementary changes -/

/-- A change of the graph of a session. -/
inductive Edit where
  /-- Add an entity. -/
  | addEntity (name : String)
  /-- Add an event, unless one of its ends is no entity. -/
  | addEvent (source target : EntityId) (kind : Kind) (location : Option Location)
  /-- Disable the events of which a condition holds. -/
  | disable (condition : Graph → EventId → Bool)

/-- Carry out an edit. -/
def edit (session : Session) : Edit → Session
  | .addEntity name => session.addEntity name
  | .addEvent source target kind location =>
    (session.addEvent? source target kind location).toOption.getD session
  | .disable condition => (session.disableIf condition).1

/-- An elementary change of a session. -/
inductive Change where
  /-- Go on by one move. -/
  | step
  /-- Take back the newest move. -/
  | stepBack
  /-- Forget the moves and go to the start. -/
  | reset
  /-- Change the graph. -/
  | edit (edit : Edit)

/-- Carry out an elementary change. -/
def change (session : Session) : Change → Session
  | .step => session.step
  | .stepBack => session.stepBack
  | .reset => session.reset
  | .edit edit => session.edit edit

/-- The elementary changes that a command makes to a session, in order. -/
def changes (session : Session) : Command → List Change
  | .step => [.step]
  | .stepBack => [.stepBack]
  | .stepN count => List.replicate (session.stepN count).2 .step
  | .stepBackN count => List.replicate (session.stepBackN count).2 .stepBack
  | .stepOver => List.replicate session.stepOver.2 .step
  | .continueToEnd => List.replicate session.continueToEnd.2 .step
  | .rewind => List.replicate session.rewind.2 .stepBack
  | .reset => [.reset]
  | .disableKind kind => [.edit (.disable fun graph event => (Filter.kind kind).holds graph event)]
  | .disableTo fragment =>
    [.edit (.disable fun graph event => (Filter.targetContains fragment).holds graph event)]
  | .disableIf condition => [.edit (.disable condition)]
  | .addEntity name => [.edit (.addEntity name)]
  | .addEvent source target kind location => [.edit (.addEvent source target kind location)]

/-- Repeating a change is iterating it. -/
theorem foldl_replicate_change (session : Session) (count : Nat) (change : Change) :
    (List.replicate count change).foldl Session.change session =
      (Session.change · change)^[count] session := by
  induction count generalizing session with
  | zero => rfl
  | succ count ih => rw [List.replicate_succ, List.foldl_cons, ih, Function.iterate_succ_apply]

/-- The loop of steps is as many steps as it reports. -/
theorem stepLoop_eq_iterate (count taken : Nat) (session : Session) :
    ∃ more, stepLoop count taken session = (step^[more] session, taken + more) := by
  induction count generalizing taken session with
  | zero => exact ⟨0, rfl⟩
  | succ count ih =>
    rw [stepLoop]
    split
    · exact ⟨0, rfl⟩
    · obtain ⟨more, same⟩ := ih (taken + 1) session.step
      exact ⟨more + 1, by rw [same, Function.iterate_succ_apply]; congr 1; omega⟩

/-- The loop of steps back is as many steps back as it reports. -/
theorem stepBackLoop_eq_iterate (count undone : Nat) (session : Session) :
    ∃ more, stepBackLoop count undone session = (stepBack^[more] session, undone + more) := by
  induction count generalizing undone session with
  | zero => exact ⟨0, rfl⟩
  | succ count ih =>
    rw [stepBackLoop]
    split
    · exact ⟨0, rfl⟩
    · obtain ⟨more, same⟩ := ih (undone + 1) session.stepBack
      exact ⟨more + 1, by rw [same, Function.iterate_succ_apply]; congr 1; omega⟩

/-- Stepping over is as many steps as it reports. -/
theorem stepOverLoop_eq_iterate (limit fuel taken : Nat) (session : Session) :
    ∃ more, stepOverLoop limit fuel taken session = (step^[more] session, taken + more) := by
  induction fuel generalizing taken session with
  | zero => exact ⟨0, rfl⟩
  | succ fuel ih =>
    rw [stepOverLoop]
    split
    · exact ⟨0, rfl⟩
    · dsimp only
      split
      · exact ⟨1, rfl⟩
      · obtain ⟨more, same⟩ := ih (taken + 1) session.step
        exact ⟨more + 1, by rw [same, Function.iterate_succ_apply]; congr 1; omega⟩

/-- A command does what its elementary changes do. -/
theorem foldl_changes (session : Session) (command : Command) :
    (session.changes command).foldl change session = (session.apply command).1 := by
  cases command with
  | stepN count =>
    obtain ⟨more, same⟩ := stepLoop_eq_iterate count 0 session
    simp only [changes, apply, counted, stepN, same, foldl_replicate_change, Nat.zero_add]
    rfl
  | stepBackN count =>
    obtain ⟨more, same⟩ := stepBackLoop_eq_iterate count 0 session
    simp only [changes, apply, counted, stepBackN, same, foldl_replicate_change, Nat.zero_add]
    rfl
  | stepOver =>
    obtain ⟨more, same⟩ :=
      stepOverLoop_eq_iterate session.depth (session.graph.numEvents + 1) 0 session
    simp only [changes, apply, counted, stepOver, same, foldl_replicate_change, Nat.zero_add]
    rfl
  | continueToEnd =>
    obtain ⟨more, same⟩ := stepLoop_eq_iterate Text.maxWord 0 session
    simp only [changes, apply, counted, continueToEnd, stepN, same, foldl_replicate_change,
      Nat.zero_add]
    rfl
  | rewind =>
    obtain ⟨more, same⟩ := stepBackLoop_eq_iterate Text.maxWord 0 session
    simp only [changes, apply, counted, rewind, stepBackN, same, foldl_replicate_change,
      Nat.zero_add]
    rfl
  | addEvent source target kind location =>
    simp only [changes, apply, List.foldl_cons, List.foldl_nil, change, edit]
    cases session.addEvent? source target kind location <;> rfl
  | _ => rfl

/-! ## Revisions -/

/-- A session that differs from an earlier one in its graph only: the graph was edited, and the
walk has entries for the entities that were added. -/
structure Revision (session revised : Session) : Prop where
  /-- The edited graph is well formed. -/
  wellFormed : revised.graph.WellFormed
  /-- The edited graph keeps what it had. -/
  grown : session.graph.Extends revised.graph
  /-- The walk stands where it stood. -/
  walk_eq : revised.walk =
    session.walk.growBy (revised.graph.numEntities - session.graph.numEntities)
  /-- The log is the same. -/
  log_eq : revised.log = session.log

/-- A session is a revision of itself. -/
theorem Revision.refl {session : Session} (wellFormed : session.graph.WellFormed) :
    Revision session session :=
  ⟨wellFormed, .refl _, by simp, rfl⟩

/-- A revision of a revision is a revision. -/
theorem Revision.trans {first second third : Session} (lower : Revision first second)
    (upper : Revision second third) : Revision first third where
  wellFormed := upper.wellFormed
  grown := lower.grown.trans upper.grown
  walk_eq := by
    have := lower.grown.numEntities_le
    have := upper.grown.numEntities_le
    rw [upper.walk_eq, lower.walk_eq, Walk.growBy_growBy]
    congr 1
    omega
  log_eq := upper.log_eq.trans lower.log_eq

/-- An edit makes a revision. -/
theorem revision_edit {session : Session} (wellFormed : session.graph.WellFormed) (edit : Edit) :
    Revision session (session.edit edit) := by
  cases edit with
  | addEntity name =>
    refine ⟨wellFormed.addEntity name, Graph.extends_addEntity _ name, ?_, rfl⟩
    simp [Session.edit, addEntity, Walk.grow_eq_growBy]
  | addEvent source target kind location =>
    simp only [Session.edit, addEvent?, Graph.addEvent?]
    split
    · exact .refl wellFormed
    · rename_i known
      obtain ⟨leaves, enters⟩ := not_or.mp known
      refine ⟨wellFormed.addEvent (Nat.lt_of_not_le leaves) (Nat.lt_of_not_le enters) kind location,
        Graph.extends_addEvent _ source target kind location, ?_, rfl⟩
      simp [Except.map, Except.toOption]
  | disable condition =>
    have shape := Graph.sameShape_disable session.graph (session.graph.matching condition)
    refine ⟨shape.wellFormed wellFormed, shape.extends, ?_, rfl⟩
    simp [Session.edit, disableIf, Graph.disableIf, shape.numEntities_eq]

/-! ## Sessions behind the moves -/

/-- A session with the sessions from which the moves of its log were made, the newest first. -/
structure Recorded where
  /-- The session. -/
  session : Session
  /-- For each move of the log, the session immediately before the step that made it. -/
  before : List Session

namespace Recorded

/-- A new session, without moves. -/
def new (rootName result : String) : Recorded := ⟨.new rootName result, []⟩

/-- Carry out an elementary change. A step that makes a move records the session it was made
from; a step back drops the newest record, and a reset drops them all. -/
def change (recorded : Recorded) (change : Change) : Recorded where
  session := recorded.session.change change
  before :=
    match change with
    | .step =>
      if recorded.session.isFinished then recorded.before
      else recorded.session :: recorded.before
    | .stepBack => recorded.before.tail
    | .reset => []
    | .edit _ => recorded.before

/-- Carry out a list of commands, each as its elementary changes. -/
def run (recorded : Recorded) (commands : List Command) : Recorded :=
  commands.foldl
    (fun recorded command => (recorded.session.changes command).foldl change recorded) recorded

/-- The recorded session goes through the changes as it would without a record. -/
theorem session_foldl_change (recorded : Recorded) (changes : List Change) :
    (changes.foldl change recorded).session = changes.foldl Session.change recorded.session := by
  induction changes generalizing recorded with
  | nil => rfl
  | cons first rest ih => exact ih (recorded.change first)

/-- The recorded session goes through the commands as it would without a record. -/
theorem session_run (recorded : Recorded) (commands : List Command) :
    (recorded.run commands).session = recorded.session.run commands := by
  induction commands generalizing recorded with
  | nil => rfl
  | cons command rest ih =>
    have head := session_foldl_change recorded (recorded.session.changes command)
    rw [foldl_changes] at head
    simp only [run, Session.run, List.foldl_cons] at ih ⊢
    rw [ih, head]

end Recorded

/-- A session with the sessions behind its moves, the newest first: the start of a walk, or a step
from the newest of them in a graph that was edited since. -/
inductive Traced : Session → List Session → Prop
  /-- A session at its start has no moves. -/
  | start {session : Session} : session.graph.WellFormed → 0 < session.graph.numEntities →
      session.log = [] → session.walk = .start session.graph.numEntities → Traced session []
  /-- A step from an unfinished session makes a move. -/
  | moved {earlier session : Session} {past : List Session} : Traced earlier past →
      earlier.isFinished = false → Revision earlier.step session → Traced session (earlier :: past)

/-- A step leaves the graph as it is. -/
@[simp] theorem graph_step (session : Session) : session.step.graph = session.graph := by
  unfold step
  split <;> rfl

/-- Steps leave the graph as it is. -/
@[simp] theorem graph_iterate_step (session : Session) (count : Nat) :
    (step^[count] session).graph = session.graph := by
  induction count generalizing session with
  | zero => rfl
  | succ count ih => rw [Function.iterate_succ_apply, ih, graph_step]

/-- A step back leaves the graph as it is. -/
@[simp] theorem graph_stepBack (session : Session) : session.stepBack.graph = session.graph := by
  unfold stepBack
  split <;> rfl

/-- A step back leaves the result as it is. -/
@[simp] theorem result_stepBack (session : Session) : session.stepBack.result = session.result := by
  unfold stepBack
  split <;> rfl

/-- Stepping an unfinished session advances its walk. -/
theorem walk_step {session : Session} (unfinished : session.isFinished = false) :
    session.step.walk = (session.walk.advance session.graph).1 := by
  simp [step, unfinished]

/-- Stepping an unfinished session adds one move to its log. -/
theorem log_step {session : Session} (unfinished : session.isFinished = false) :
    session.step.log = (session.walk.advance session.graph).2 :: session.log := by
  simp [step, unfinished]

namespace Traced

variable {session : Session} {past : List Session}

/-- The graph of a session is well formed. -/
theorem wellFormed (traced : Traced session past) : session.graph.WellFormed := by
  cases traced with
  | start wellFormed _ _ _ => exact wellFormed
  | moved _ _ revision => exact revision.wellFormed

/-- The graph of a session has its root. -/
theorem rooted (traced : Traced session past) : 0 < session.graph.numEntities := by
  induction traced with
  | start _ rooted _ _ => exact rooted
  | moved _ _ revision rooted =>
    have kept := revision.grown.numEntities_le
    rw [graph_step] at kept
    omega

/-- The walk of a session has an entry for each entity. -/
theorem fits (traced : Traced session past) : session.walk.Fits session.graph := by
  induction traced with
  | @start session _ _ _ walk =>
    rw [walk]
    exact Walk.fits_start session.graph
  | @moved earlier session past traced unfinished revision fits =>
    have grown := revision.grown.numEntities_le
    rw [revision.walk_eq, walk_step unfinished]
    rw [graph_step] at grown ⊢
    exact fits.advance.growBy grown

/-- There is one session behind each move. -/
theorem length_eq (traced : Traced session past) : past.length = session.log.length := by
  induction traced with
  | start _ _ log _ => simp [log]
  | moved _ unfinished revision same =>
    rw [revision.log_eq, log_step unfinished, List.length_cons, List.length_cons, same]

/-- A revision has the same moves behind it. -/
theorem revise {revised : Session} (traced : Traced session past)
    (revision : Revision session revised) : Traced revised past := by
  cases traced with
  | start _ rooted log walk =>
    have grown := revision.grown.numEntities_le
    refine .start revision.wellFormed (by omega) (revision.log_eq.trans log) ?_
    rw [revision.walk_eq, walk, Walk.growBy_start rooted]
    congr 1
    omega
  | moved traced unfinished earlier => exact .moved traced unfinished (earlier.trans revision)

/-- A step back from a revision of a step is a revision of the session before the step: the move
is undone, and what was added since stays. -/
theorem stepBack_eq {earlier : Session} (traced : Traced earlier past)
    (unfinished : earlier.isFinished = false) (revision : Revision earlier.step session) :
    session.stepBack = { session with
      walk := earlier.walk.growBy (session.graph.numEntities - earlier.graph.numEntities)
      log := earlier.log } := by
  have undone := Walk.undo_advance traced.wellFormed traced.fits
    (session.graph.numEntities - earlier.graph.numEntities)
  have walk := revision.walk_eq
  rw [walk_step unfinished, graph_step] at walk
  simp only [stepBack, revision.log_eq, log_step unfinished, walk, undone]

/-- A step records the session it is made from, unless the walk is finished. -/
theorem step (traced : Traced session past) :
    Traced session.step (if session.isFinished then past else session :: past) := by
  cases finished : session.isFinished with
  | true =>
    rw [if_pos rfl, Session.step, finished]
    exact traced
  | false =>
    have wellFormed : session.step.graph.WellFormed := by
      rw [graph_step]
      exact traced.wellFormed
    exact .moved traced finished (.refl wellFormed)

/-- A step back drops the newest move. -/
theorem stepBack (traced : Traced session past) : Traced session.stepBack past.tail := by
  cases traced with
  | start wellFormed rooted log walk =>
    have same : session.stepBack = session := by simp [Session.stepBack, log]
    rw [same]
    exact .start wellFormed rooted log walk
  | moved traced unfinished revision =>
    refine traced.revise ⟨?_, ?_, ?_, ?_⟩
    · rw [graph_stepBack]
      exact revision.wellFormed
    · have grown := revision.grown
      rw [graph_step] at grown
      rw [graph_stepBack]
      exact grown
    · rw [stepBack_eq traced unfinished revision]
    · rw [stepBack_eq traced unfinished revision]

/-- A reset goes to the start of the graph as it is. -/
theorem reset (traced : Traced session past) : Traced session.reset [] :=
  .start traced.wellFormed traced.rooted rfl rfl

/-- Every elementary change keeps the trace of a recorded session. -/
theorem change {recorded : Recorded} (traced : Traced recorded.session recorded.before)
    (change : Change) :
    Traced (recorded.change change).session (recorded.change change).before := by
  cases change with
  | step => exact traced.step
  | stepBack => exact traced.stepBack
  | reset => exact traced.reset
  | edit edit => exact traced.revise (revision_edit traced.wellFormed edit)

/-- Every run of commands keeps the trace of a recorded session. -/
theorem run (recorded : Recorded) (traced : Traced recorded.session recorded.before)
    (commands : List Command) :
    Traced (recorded.run commands).session (recorded.run commands).before := by
  have changes (recorded : Recorded) (traced : Traced recorded.session recorded.before)
      (list : List Change) : Traced (list.foldl Recorded.change recorded).session
        (list.foldl Recorded.change recorded).before := by
    induction list generalizing recorded with
    | nil => exact traced
    | cons change rest ih => exact ih (recorded.change change) (traced.change change)
  induction commands generalizing recorded with
  | nil => exact traced
  | cons command rest ih => exact ih _ (changes recorded traced _)

end Traced

/-- A new session has no moves behind it. -/
theorem traced_new (rootName result : String) : Traced (.new rootName result) [] :=
  .start (Graph.wellFormed_empty.addEntity rootName) (by simp [new, ofGraph]) rfl rfl

/-- Sessions that commands make of a new session. -/
def Reachable (session : Session) : Prop :=
  ∃ rootName result commands, session = (Session.new rootName result).run commands

/-- Every session that commands make has sessions behind its moves. -/
theorem Reachable.traced {session : Session} (reachable : session.Reachable) :
    ∃ past, Traced session past := by
  obtain ⟨rootName, result, commands, rfl⟩ := reachable
  have traced := Traced.run (.new rootName result) (traced_new rootName result) commands
  rw [Recorded.session_run] at traced
  exact ⟨_, traced⟩

/-- A command makes a reachable session of a reachable one. -/
theorem Reachable.apply {session : Session} (reachable : session.Reachable) (command : Command) :
    (session.apply command).1.Reachable := by
  obtain ⟨rootName, result, commands, rfl⟩ := reachable
  exact ⟨rootName, result, commands ++ [command], by simp [run]⟩

/-! ## Stepping back -/

/-- Stepping back as often as there are moves takes them all back, one by one. -/
theorem stepBackLoop_of_le {count : Nat} {session : Session} (enough : count ≤ session.log.length)
    (undone : Nat) :
    stepBackLoop count undone session = (stepBack^[count] session, undone + count) := by
  induction count generalizing session undone with
  | zero => rfl
  | succ count ih =>
    cases log : session.log with
    | nil => simp [log] at enough
    | cons move rest =>
      have shorter : count ≤ session.stepBack.log.length := by
        simpa [stepBack, log] using enough
      rw [stepBackLoop, isAtStart, log, ih shorter]
      simp [Nat.add_assoc, Nat.add_comm 1 count]

/-- Stepping back more often than there are moves stops at the start. -/
theorem stepBackLoop_of_ge {count : Nat} {session : Session} (enough : session.log.length ≤ count)
    (undone : Nat) : stepBackLoop count undone session =
      (stepBack^[session.log.length] session, undone + session.log.length) := by
  induction count generalizing session undone with
  | zero => simp [stepBackLoop, Nat.le_zero.mp enough]
  | succ count ih =>
    cases log : session.log with
    | nil => simp [stepBackLoop, isAtStart, log]
    | cons move rest =>
      have shorter : session.stepBack.log = rest := by simp [stepBack, log]
      have fits : session.stepBack.log.length ≤ count := by
        rw [shorter]
        simpa [log] using enough
      rw [stepBackLoop, isAtStart, log, ih fits, shorter]
      simp [Nat.add_assoc, Nat.add_comm 1 rest.length]

namespace Traced

variable {session : Session} {past : List Session}

/-- Each step back uncovers the session behind one more move. -/
theorem iterate_stepBack (traced : Traced session past) (count : Nat) :
    Traced (Session.stepBack^[count] session) (past.drop count) := by
  induction count generalizing session past with
  | zero => exact traced
  | succ count ih =>
    rw [Function.iterate_succ_apply, ← List.drop_tail]
    exact ih traced.stepBack

/-- The session behind a move made it, and stepping back to that move restores the walk and the log
of that session. -/
theorem restores (traced : Traced session past) {index : Nat} (inside : index < past.length) :
    past[index].isFinished = false ∧ past[index].step.log = session.log.drop index ∧
      past[index].graph.numEntities ≤ session.graph.numEntities ∧
      Session.stepBack^[index + 1] session = { session with
        walk := past[index].walk.growBy
          (session.graph.numEntities - past[index].graph.numEntities)
        log := session.log.drop (index + 1) } := by
  induction index generalizing session past with
  | zero =>
    cases traced with
    | start => simp at inside
    | @moved earlier _ past traced unfinished revision =>
      have kept := revision.grown.numEntities_le
      rw [graph_step] at kept
      refine ⟨unfinished, revision.log_eq.symm, kept, ?_⟩
      have later : session.log.drop 1 = earlier.log := by
        rw [revision.log_eq, log_step unfinished]
        rfl
      rw [later]
      exact stepBack_eq traced unfinished revision
  | succ index ih =>
    cases traced with
    | start => simp at inside
    | @moved earlier _ past traced unfinished revision =>
      have back := stepBack_eq traced unfinished revision
      have older (count : Nat) : session.log.drop (count + 1) = earlier.log.drop count := by
        rw [revision.log_eq, log_step unfinished, List.drop_succ_cons]
      obtain ⟨going, made, kept, restored⟩ :=
        ih (Traced.moved traced unfinished revision).stepBack (by simpa using inside)
      rw [back] at made kept
      refine ⟨going, ?_, kept, ?_⟩
      · rw [older]
        exact made
      · rw [Function.iterate_succ_apply, restored, back, older]
        rfl

/-- Stepping back through all moves resets the session. -/
theorem iterate_stepBack_eq_reset (traced : Traced session past) :
    Session.stepBack^[session.log.length] session = session.reset := by
  have graph (count : Nat) : (Session.stepBack^[count] session).graph = session.graph ∧
      (Session.stepBack^[count] session).result = session.result := by
    induction count with
    | zero => exact ⟨rfl, rfl⟩
    | succ count ih =>
      rw [Function.iterate_succ_apply', graph_stepBack, result_stepBack]
      exact ih
  obtain ⟨sameGraph, sameResult⟩ := graph session.log.length
  have last := traced.iterate_stepBack session.log.length
  rw [List.drop_eq_nil_of_le (Nat.le_of_eq traced.length_eq)] at last
  revert sameGraph sameResult last
  generalize Session.stepBack^[session.log.length] session = back
  intro sameGraph sameResult last
  cases last with
  | start _ _ log walk =>
    rw [sameGraph] at walk
    calc
      back = ⟨back.graph, back.result, back.walk, back.log⟩ := rfl
      _ = session.reset := by rw [sameGraph, sameResult, walk, log]; rfl

end Traced

/-- After any commands, stepping back `index + 1` times finds the walk from which the step was made
that recorded the move at `index` of the log, the newest move being at 0. Entities added since stay,
undiscovered and without a parent; the log loses the moves taken back, and the graph is untouched.
Rewinding a log that a word can count is resetting. -/
theorem stepBackN_restores (rootName result : String) (commands : List Command) :
    let recorded := (Recorded.new rootName result).run commands
    let session := (Session.new rootName result).run commands
    recorded.session = session ∧ recorded.before.length = session.steps ∧
      (∀ (index : Nat) (inside : index < recorded.before.length),
        let before := recorded.before[index]
        before.isFinished = false ∧ before.step.log = session.log.drop index ∧
          before.graph.numEntities ≤ session.graph.numEntities ∧
          session.stepBackN (index + 1) =
            ({ session with
                walk := before.walk.growBy
                  (session.graph.numEntities - before.graph.numEntities)
                log := session.log.drop (index + 1) }, index + 1)) ∧
      (session.steps ≤ Text.maxWord → session.rewind = (session.reset, session.steps)) := by
  intro recorded session
  have same : recorded.session = session := Recorded.session_run (.new rootName result) commands
  have traced : Traced session recorded.before := by
    rw [← same]
    exact Traced.run (.new rootName result) (traced_new rootName result) commands
  refine ⟨same, traced.length_eq, fun index inside => ?_, fun counted => ?_⟩
  · obtain ⟨going, made, kept, restored⟩ := traced.restores inside
    refine ⟨going, made, kept, ?_⟩
    have enough : index + 1 ≤ session.log.length := traced.length_eq ▸ inside
    rw [stepBackN, stepBackLoop_of_le enough, restored, Nat.zero_add]
  · rw [rewind, stepBackN, stepBackLoop_of_ge counted, traced.iterate_stepBack_eq_reset,
      Nat.zero_add]
    rfl

/-- Two of three moves are taken back across an added entity and a disabled event. -/
theorem stepBackN_restores_edited :
    let commands : List Command :=
      [.addEntity "a", .addEvent 0 1 .templateInstantiation none, .addEvent 1 0 .memoization none,
        .step, .addEntity "b", .addEvent 1 2 .templateInstantiation none, .step,
        .disableKind .memoization, .step]
    let session := (Session.new "root" "int").run commands
    session.steps = 3 ∧ session.walk = ⟨#[true, true, true], #[none, some 0, some 2],
        [.via 2, .via 0, .root]⟩ ∧
      (session.stepBackN 2).1.walk = ⟨#[true, true, false], #[none, some 0, none],
        [.via 0, .root]⟩ ∧
      (session.stepBackN 3).1.walk = ⟨#[true, false, false], #[none, none, none], [.root]⟩ ∧
      session.rewind = (session.reset, 3) := by
  intro commands session
  obtain ⟨_, _, restored, rewound⟩ := stepBackN_restores "root" "int" commands
  refine ⟨by decide, by decide, ?_, ?_, rewound (by decide)⟩
  · rw [(restored 1 (by decide)).2.2.2]
    decide
  · rw [(restored 2 (by decide)).2.2.2]
    decide
end Retrace.Session
