import Retrace.Proofs.Listing
import Retrace.Proofs.Soundness

/-!
# Walks in preorder

A walk that goes on from its start enters the events of the recursive listing below the root, line
by line, and ends with one more step. The agenda of the walk is what the recursion has before it:
each step takes the first event off the agenda and, where it discovers the target of the event, puts
the enabled events that leave the target in its place (`Walk.agenda_advance`). The loop of a forward
trace does the same to its pending events, so that by induction on the loop the walk enters what the
loop lists (`replays_forwardLoop`).
-/
namespace Retrace.Walk

/-! ## The effect of entering an event -/

/-- Of the entities of a graph, those that a walk has discovered count as met. -/
theorem Fits.isMet_discovered {graph : Graph} {walk : Walk} (fits : walk.Fits graph)
    {entity : EntityId} (inside : entity < graph.numEntities) :
    Graph.isMet walk.discovered entity = walk.isDiscovered entity := by
  rw [← fits.discovered_size] at inside
  rw [Graph.isMet, isDiscovered, Array.getElem?_eq_getElem inside]
  rfl

/-- A descent is into the event entered. -/
@[simp] theorem event_enter (walk : Walk) (event : EventId) (target : EntityId) :
    (walk.enter event target).2.event = event := by
  unfold enter
  split <;> rfl

section

variable {graph : Graph} {walk : Walk} {depth : Nat} {event : EventId}
  {rest : List (Nat × EventId)} {popped stay : List Frame}

/-- A move that enters an event puts it on top of the trail of the frames kept. -/
theorem Descends.trail_advance (descends : walk.Descends graph depth event rest popped stay) :
    (walk.advance graph).1.trail = event :: trailOf stay := by
  rw [descends.advance_eq, trail_eq, stack_enter, trailOf_via]

/-- A move that enters an event ends in its frame. -/
theorem Descends.stack_advance (descends : walk.Descends graph depth event rest popped stay) :
    (walk.advance graph).1.stack = .via event :: stay := by
  rw [descends.advance_eq, stack_enter]

/-- A move that enters an event marks its target as discovered. -/
theorem Descends.discovered_advance (descends : walk.Descends graph depth event rest popped stay) :
    (walk.advance graph).1.discovered =
      if walk.isDiscovered (graph.target event) then walk.discovered
      else walk.discovered.setIfInBounds (graph.target event) true := by
  rw [descends.advance_eq]
  cases known : walk.isDiscovered (graph.target event) with
  | true =>
    have same : ({ walk with stack := stay } : Walk).isDiscovered (graph.target event) = true :=
      known
    simp [enter, same]
  | false =>
    have same : ({ walk with stack := stay } : Walk).isDiscovered (graph.target event) = false :=
      known
    simp [enter, same]

/-- A move notes the event it enters as the parent of the target if it discovers the target, and
notes nothing else. -/
theorem Descends.parentOf_advance (wellFormed : graph.WellFormed) (fits : walk.Fits graph)
    (descends : walk.Descends graph depth event rest popped stay) (entity : EntityId) :
    (walk.advance graph).1.parentOf entity =
      if entity = graph.target event ∧ walk.isDiscovered (graph.target event) = false then
        some event
      else walk.parentOf entity := by
  have inside : graph.target event < ({ walk with stack := stay } : Walk).parent.size :=
    fits.parent_size ▸ wellFormed.target_lt event (Graph.lt_of_isEnabled descends.enabled)
  rw [descends.advance_eq]
  cases known : walk.isDiscovered (graph.target event) with
  | true =>
    have same : ({ walk with stack := stay } : Walk).isDiscovered (graph.target event) = true :=
      known
    refine (parentOf_enter_known same event entity).trans ?_
    simp [parentOf]
  | false =>
    have same : ({ walk with stack := stay } : Walk).isDiscovered (graph.target event) = false :=
      known
    refine (parentOf_enter_new inside same event entity).trans ?_
    simp [parentOf]

/-- A move takes the first event off the agenda. Where it discovers the target of the event, the
enabled events that leave the target come next, one level deeper; where it does not, the event was
entered as a leaf, and the rest of the agenda is left. -/
theorem agenda_advance (wellFormed : graph.WellFormed) (sound : Sound graph walk)
    (descends : walk.Descends graph depth event rest popped stay) :
    (walk.advance graph).1.agenda graph =
      if walk.isDiscovered (graph.target event) then rest
      else (graph.enabledOutgoing (graph.target event)).map (depth + 1, ·) ++ rest := by
  have parent := descends.parentOf_advance wellFormed sound.fits (graph.target event)
  rw [agenda, opening, descends.stack_advance, descends.trail_advance, ← descends.rest_eq,
    List.length_cons, ← descends.depth_eq]
  cases known : walk.isDiscovered (graph.target event) with
  | true =>
    rw [known] at parent
    have other : walk.parentOf (graph.target event) ≠ some event := fun noted =>
      Nat.lt_irrefl event (sound.parent_lt descends noted rfl)
    simp [isLeaf, parent, other]
  | false =>
    rw [known] at parent
    simp [isLeaf, parent, Frame.entity]

end

end Retrace.Walk

namespace Retrace.Session

/-! ## Steps along a listing -/

/-- A step into the event of a line: the session comes to stand in the event, at the depth of the
line, and discovers the target with the event as its parent unless the line is repeated. -/
structure Enters (before after : Session) (line : ForwardLine) : Prop where
  /-- The event of the line is entered. -/
  event_eq : after.currentEvent? = some line.event
  /-- The backtrace is as long as the line is deep. -/
  depth_eq : after.depth = line.depth
  /-- The line is repeated exactly when its target was discovered before. -/
  repeated_eq : line.repeated = before.walk.isDiscovered (before.graph.target line.event)
  /-- The target is discovered, and nothing else is. -/
  discovered_iff : ∀ entity, after.walk.isDiscovered entity = true ↔
    before.walk.isDiscovered entity = true ∨ entity = before.graph.target line.event
  /-- The event becomes the parent of what it discovers, and no other parent changes. -/
  parent_eq : ∀ entity, after.walk.parentOf entity =
    if entity = before.graph.target line.event ∧ line.repeated = false then some line.event
    else before.walk.parentOf entity
  /-- The log is one move longer, and the move is into the event. -/
  log_eq : ∃ move, after.log = move :: before.log ∧
    move.descent.map Descent.event = some line.event

/-- An unfinished session that goes through the lines, one step a line, and is finished by the step
after the last of them. -/
def Replays (session : Session) : List ForwardLine → Prop
  | [] => session.isFinished = false ∧ session.step.walk = { session.walk with stack := [] } ∧
      ∃ move, session.step.log = move :: session.log ∧ move.descent = none
  | line :: lines =>
    session.isFinished = false ∧ Enters session session.step line ∧ session.step.Replays lines

/-- What a session replays, it replays line by line. -/
theorem Replays.getElem {session : Session} {lines : List ForwardLine}
    (replays : session.Replays lines) {index : Nat} (inside : index < lines.length) :
    Enters (step^[index] session) (step^[index + 1] session) lines[index] := by
  induction lines generalizing session index with
  | nil => simp at inside
  | cons line lines ih =>
    obtain ⟨_, enters, replays⟩ := replays
    cases index with
    | zero => exact enters
    | succ index =>
      rw [Function.iterate_succ_apply, Function.iterate_succ_apply _ (index + 1)]
      exact ih replays (by simpa using inside)

/-- A session that replays lines is unfinished until it has gone through all of them. -/
theorem Replays.isFinished_iterate {session : Session} {lines : List ForwardLine}
    (replays : session.Replays lines) {count : Nat} (few : count ≤ lines.length) :
    (step^[count] session).isFinished = false := by
  induction lines generalizing session count with
  | nil =>
    obtain rfl := Nat.le_zero.mp few
    exact replays.1
  | cons line lines ih =>
    cases count with
    | zero => exact replays.1
    | succ count =>
      rw [Function.iterate_succ_apply]
      exact ih replays.2.2 (by simpa using few)

/-- A session that has gone through its lines is finished by one more step, and has made one move
for each step. -/
theorem Replays.finished {session : Session} {lines : List ForwardLine}
    (replays : session.Replays lines) :
    (step^[lines.length + 1] session).isFinished = true ∧
      (step^[lines.length + 1] session).steps = session.steps + lines.length + 1 := by
  induction lines generalizing session with
  | nil =>
    obtain ⟨_, walk, _, log, _⟩ := replays
    exact ⟨by simp [isFinished, walk], by simp [steps, log]⟩
  | cons line lines ih =>
    obtain ⟨_, enters, replays⟩ := replays
    obtain ⟨_, log, _⟩ := enters.log_eq
    obtain ⟨finished, counted⟩ := ih replays
    rw [List.length_cons, Function.iterate_succ_apply]
    refine ⟨finished, counted.trans ?_⟩
    simp only [steps, log, List.length_cons]
    omega

/-! ## Simulation of the loop -/

/-- A session stands where the loop of a forward trace does: what the walk has discovered was met,
and the agenda of the walk is pending. -/
structure Poised (session : Session) (met : Array Bool) (pending : List (Nat × EventId)) :
    Prop where
  /-- The graph is well formed. -/
  wellFormed : session.graph.WellFormed
  /-- The walk is sound. -/
  sound : Walk.Sound session.graph session.walk
  /-- The walk goes on. -/
  unfinished : session.isFinished = false
  /-- What is discovered was met. -/
  discovered_eq : session.walk.discovered = met
  /-- What is on the agenda is pending. -/
  agenda_eq : session.walk.agenda session.graph = pending

namespace Poised

variable {session : Session} {met : Array Bool}

/-- A session with nothing pending is finished by one step. -/
theorem replays_nil (poised : session.Poised met []) : session.Replays [] := by
  have ended :=
    Walk.advance_of_agenda_eq_nil poised.wellFormed poised.sound.stands poised.agenda_eq
  refine ⟨poised.unfinished, ?_, ⟨session.walk.stack, none⟩, ?_, rfl⟩
  · rw [walk_step poised.unfinished, ended]
  · rw [log_step poised.unfinished, ended]

/-- The target of an event that a walk can enter was met exactly when it is discovered. -/
theorem isMet_eq {pending : List (Nat × EventId)} (poised : session.Poised met pending)
    {event : EventId} (enabled : session.graph.isEnabled event = true) :
    Graph.isMet met (session.graph.target event) =
      session.walk.isDiscovered (session.graph.target event) := by
  rw [← poised.discovered_eq]
  exact poised.sound.fits.isMet_discovered
    (poised.wellFormed.target_lt event (Graph.lt_of_isEnabled enabled))

/-- A step takes the first event off what is pending, as the loop does. -/
theorem step {depth : Nat} {event : EventId} {pending : List (Nat × EventId)}
    (poised : session.Poised met ((depth, event) :: pending)) :
    let target := session.graph.target event
    Enters session session.step ⟨depth, event, Graph.isMet met target⟩ ∧
      session.step.Poised
        (if Graph.isMet met target then met else met.setIfInBounds target true)
        (if Graph.isMet met target then pending
          else (session.graph.enabledOutgoing target).map (depth + 1, ·) ++ pending) := by
  intro target
  have wellFormed := poised.wellFormed
  have sound := poised.sound
  have walk := walk_step poised.unfinished
  obtain ⟨popped, stay, descends⟩ :=
    Walk.descends_of_agenda wellFormed sound.stands poised.agenda_eq
  have known := poised.isMet_eq descends.enabled
  have inside : target < ({ session.walk with stack := stay } : Walk).discovered.size :=
    sound.fits.discovered_size ▸ wellFormed.target_lt event (Graph.lt_of_isEnabled descends.enabled)
  rw [known]
  refine ⟨⟨?_, ?_, rfl, fun entity => ?_, fun entity => ?_, _, log_step poised.unfinished, ?_⟩,
    ⟨?_, ?_, ?_, ?_, ?_⟩⟩
  · rw [currentEvent?, walk, Walk.currentEvent?, descends.stack_advance]
    rfl
  · rw [Session.depth, walk, descends.trail_advance, List.length_cons, descends.depth_eq]
  · rw [walk, descends.advance_eq]
    exact Walk.isDiscovered_enter inside event entity
  · rw [walk]
    exact descends.parentOf_advance wellFormed sound.fits entity
  · rw [descends.advance_eq, Option.map_some, Walk.event_enter]
  · rw [graph_step]
    exact wellFormed
  · rw [graph_step, walk]
    exact sound.advance wellFormed
  · rw [isFinished, walk, descends.stack_advance]
    rfl
  · rw [walk, descends.discovered_advance, poised.discovered_eq]
  · rw [graph_step, walk]
    exact Walk.agenda_advance wellFormed sound descends

/-- A session enters what the loop of a forward trace lists of what is pending, and then ends. -/
theorem replays_forwardLoop {graph : Graph} {pending : List (Nat × EventId)}
    (same : session.graph = graph) (poised : session.Poised met pending) :
    session.Replays (graph.forwardLoop none met pending) := by
  fun_induction Graph.forwardLoop graph none met pending generalizing session
  case case1 => exact poised.replays_nil
  case case2 met depth event pending target known ih =>
    subst same
    obtain ⟨enters, next⟩ := poised.step
    rw [known] at enters
    rw [if_pos known, if_pos known] at next
    exact ⟨poised.unfinished, enters, ih (graph_step session) next⟩
  case case3 cut _ => simp at cut
  case case4 met depth event pending target new going ih =>
    subst same
    obtain ⟨enters, next⟩ := poised.step
    rw [Bool.eq_false_iff.mpr new] at enters
    rw [if_neg new, if_neg new] at next
    exact ⟨poised.unfinished, enters, ih (graph_step session) next⟩

end Poised

/-- A session without moves is at the start of its walk. -/
theorem Traced.walk_eq_start {session : Session} {past : List Session}
    (traced : Traced session past) (start : session.isAtStart = true) :
    session.walk = .start session.graph.numEntities := by
  cases traced with
  | start _ _ _ walk => exact walk
  | moved _ unfinished revision =>
    rw [isAtStart, revision.log_eq, log_step unfinished] at start
    contradiction

/-- At the start of a walk, the events of the root are pending and only the root was met. -/
theorem Traced.poised {session : Session} {past : List Session} (traced : Traced session past)
    (start : session.isAtStart = true) :
    session.Poised ((Array.replicate session.graph.numEntities false).setIfInBounds root true)
      ((session.graph.enabledOutgoing root).map (1, ·)) := by
  have walk := traced.walk_eq_start start
  refine ⟨traced.wellFormed, traced.sound, ?_, ?_, ?_⟩
  · rw [isFinished, walk]
    rfl
  · rw [walk]
    rfl
  · rw [walk, Walk.agenda, Walk.trail_eq, Walk.start]
    simp [Walk.opening, Walk.isLeaf, Frame.entity, Graph.later]

/-- A walk at its start goes through the preorder below the root. -/
theorem Reachable.replays_preorder {session : Session} (reachable : session.Reachable)
    (start : session.isAtStart = true) :
    session.Replays (session.graph.preorder root none) := by
  obtain ⟨past, traced⟩ := reachable.traced
  rw [← Graph.forward_eq_preorder]
  exact (traced.poised start).replays_forwardLoop rfl

/-- From its start, a session enters the events of the recursive preorder below the root and no
others: step by step it stands in the event of the next line, as deep as the line, and discovers the
target unless the line is repeated. It is unfinished until it has entered them all, one more step
finishes it, and its log then holds one move more than there are lines. -/
theorem step_follows_preorder {session : Session} (reachable : session.Reachable)
    (start : session.isAtStart = true) :
    let lines := session.graph.preorder root none
    (∀ (index : Nat) (inside : index < lines.length),
        Enters (step^[index] session) (step^[index + 1] session) lines[index]) ∧
      (∀ count ≤ lines.length, (step^[count] session).isFinished = false) ∧
      (step^[lines.length + 1] session).isFinished = true ∧
      (step^[lines.length + 1] session).steps = lines.length + 1 := by
  intro lines
  have replays := reachable.replays_preorder start
  obtain ⟨finished, counted⟩ := replays.finished
  have none : session.steps = 0 := by simpa [isAtStart, steps] using start
  refine ⟨fun index inside => replays.getElem inside,
    fun count few => replays.isFinished_iterate few, finished, ?_⟩
  rw [counted, none, Nat.zero_add]

/-- A walk around a cycle with a self-loop, a parallel event and a disabled one. -/
theorem step_follows_preorder_cyclic :
    let commands : List Command :=
      [.addEntity "a", .addEvent 0 1 .templateInstantiation none, .addEvent 1 0 .memoization none,
        .addEvent 1 1 .memoization none, .addEvent 0 1 .templateInstantiation none,
        .addEvent 0 0 .defaultTemplateArgumentInstantiation none,
        .disableKind .defaultTemplateArgumentInstantiation]
    let session := (Session.new "root" "int").run commands
    session.Reachable ∧ session.isAtStart = true ∧
      session.graph.preorder root none =
        [⟨1, 0, false⟩, ⟨2, 1, true⟩, ⟨2, 2, true⟩, ⟨1, 3, true⟩] ∧
      Enters (step^[1] session) (step^[2] session) ⟨2, 1, true⟩ ∧
      (step^[5] session).isFinished = true ∧ (step^[5] session).steps = 5 := by
  intro commands session
  have reachable : session.Reachable := ⟨"root", "int", commands, rfl⟩
  have start : session.isAtStart = true := by decide
  have lines : session.graph.preorder root none =
      [⟨1, 0, false⟩, ⟨2, 1, true⟩, ⟨2, 2, true⟩, ⟨1, 3, true⟩] := by cbv
  obtain ⟨enters, _, finished, counted⟩ := step_follows_preorder reachable start
  simp only [lines] at enters finished counted
  exact ⟨reachable, start, lines, enters 1 (by decide), finished, counted⟩

end Retrace.Session
