import Retrace.Proofs.Checked.Walk

/-!
# Sessions with checked access

The commands of a session, made of checked moves. `Stable` is what lets every check of a session
succeed; every reachable session is stable (`stable`), so that a checked command does what the
command does, unless it names an entity that was never given out: `apply_eq`.
-/
namespace Retrace.Checked

/-! ## Stepping -/

/-- Go on by one move; a finished session stays as it is. -/
def step (session : Session) : Option Session :=
  if session.isFinished then some session
  else do
    let (walk, move) ← advance session.graph session.walk
    some { session with walk, log := move :: session.log }

/-- Take back the newest move; a session at its start stays as it is. -/
def stepBack (session : Session) : Option Session :=
  match session.log with
  | [] => some session
  | move :: log => do
    let walk ← undo session.walk move
    some { session with walk, log }

/-- Step while fewer than `count` steps are taken and the walk is not finished. -/
def stepLoop : Nat → Nat → Session → Option (Session × Nat)
  | 0, taken, session => some (session, taken)
  | count + 1, taken, session =>
    if session.isFinished then some (session, taken)
    else do
      let session ← step session
      stepLoop count (taken + 1) session

/-- Step back while fewer than `count` steps are undone and some are left. -/
def stepBackLoop : Nat → Nat → Session → Option (Session × Nat)
  | 0, undone, session => some (session, undone)
  | count + 1, undone, session =>
    if session.isAtStart then some (session, undone)
    else do
      let session ← stepBack session
      stepBackLoop count (undone + 1) session

/-- Step until the walk is finished or stands no deeper than `limit`. -/
def stepOverLoop (limit : Nat) : Nat → Nat → Session → Option (Session × Nat)
  | 0, taken, session => some (session, taken)
  | fuel + 1, taken, session =>
    if session.isFinished then some (session, taken)
    else do
      let session ← step session
      if session.depth ≤ limit then some (session, taken + 1)
      else stepOverLoop limit fuel (taken + 1) session

/-- Go to the start. The root, which is marked as discovered there, is an entity. -/
def reset (session : Session) : Option Session :=
  if root < session.graph.numEntities then some session.reset else none

/-- What makes the checks of a session succeed. -/
structure Stable (session : Session) : Prop where
  /-- The lists of events agree with the ends of events, which are entities. -/
  wellFormed : session.graph.WellFormed
  /-- The root is an entity. -/
  rooted : 0 < session.graph.numEntities
  /-- The walk has entries for all entities. -/
  fits : session.walk.Fits session.graph
  /-- The frames were entered through events of the graph. -/
  stacked : ∀ event, .via event ∈ session.walk.stack → event < session.graph.numEvents
  /-- The newest move can be taken back. -/
  undoable : ∀ move ∈ session.log.head?, CanUndo session.graph session.walk move

/-- A reachable session is stable. Its newest move was made by the step from the session behind it,
and what was added to the graph since changes neither the frame that it entered nor the entity that
it discovered. -/
theorem stable {session : Session} (reachable : session.Reachable) : Stable session := by
  obtain ⟨past, traced⟩ := reachable.traced
  refine ⟨traced.wellFormed, traced.rooted, traced.fits,
    fun event stacked => traced.sound.stands.lt_of_mem stacked, ?_⟩
  cases traced with
  | start _ _ log _ => simp [log]
  | @moved earlier _ past traced unfinished revision =>
    rw [revision.log_eq, Session.log_step unfinished]
    rintro move ⟨⟩ descent left
    obtain ⟨top, known⟩ := canUndo_advance traced.wellFormed earlier.walk descent left
    refine ⟨?_, fun discovery found => ?_⟩
    · rw [revision.walk_eq, Session.walk_step unfinished, Walk.stack_growBy]
      exact top
    · have grown := revision.grown.numEntities_le
      rw [Session.graph_step] at grown
      exact Nat.lt_of_lt_of_le (known discovery found) grown

/-- All checks of a step succeed. -/
theorem step_eq {session : Session} (stable : Stable session) :
    step session = some session.step := by
  cases finished : session.isFinished with
  | true => simp [step, Session.step, finished]
  | false =>
    have moved := advance_eq stable.wellFormed stable.rooted stable.fits stable.stacked
    simp [step, Session.step, finished, moved]

/-- All checks of taking back a move succeed. -/
theorem stepBack_eq {session : Session} (stable : Stable session) :
    stepBack session = some session.stepBack := by
  cases log : session.log with
  | nil => simp [stepBack, Session.stepBack, log]
  | cons move rest =>
    have undone := undo_eq stable.fits (stable.undoable move (by simp [log]))
    simp [stepBack, Session.stepBack, log, undone]

/-- All checks of several steps succeed. -/
theorem stepLoop_eq {session : Session} (reachable : session.Reachable) (count taken : Nat) :
    stepLoop count taken session = some (Session.stepLoop count taken session) := by
  induction count generalizing taken session with
  | zero => rfl
  | succ count ih =>
    have rest := ih (reachable.apply .step) (taken + 1)
    rw [stepLoop, Session.stepLoop, step_eq (stable reachable)]
    split
    · rfl
    · exact rest

/-- All checks of taking back several moves succeed. -/
theorem stepBackLoop_eq {session : Session} (reachable : session.Reachable)
    (count undone : Nat) :
    stepBackLoop count undone session = some (Session.stepBackLoop count undone session) := by
  induction count generalizing undone session with
  | zero => rfl
  | succ count ih =>
    have rest := ih (reachable.apply .stepBack) (undone + 1)
    rw [stepBackLoop, Session.stepBackLoop, stepBack_eq (stable reachable)]
    split
    · rfl
    · exact rest

/-- All checks of stepping over succeed. -/
theorem stepOverLoop_eq {session : Session} (reachable : session.Reachable)
    (limit fuel taken : Nat) :
    stepOverLoop limit fuel taken session =
      some (Session.stepOverLoop limit fuel taken session) := by
  induction fuel generalizing taken session with
  | zero => rfl
  | succ fuel ih =>
    have rest := ih (reachable.apply .step) (taken + 1)
    simp only [stepOverLoop, Session.stepOverLoop, step_eq (stable reachable),
      Option.bind_eq_bind, Option.bind_some]
    split
    · rfl
    · split
      · rfl
      · exact rest

/-! ## Editing -/

/-- Those of some events that are enabled and of which a condition holds. -/
def matching (graph : Graph) (condition : Graph → EventId → Option Bool) :
    List EventId → Option (List EventId)
  | [] => some []
  | event :: rest => do
    let enabled ← isEnabled graph event
    let holds ← if enabled then condition graph event else some false
    let others ← matching graph condition rest
    some (if holds then event :: others else others)

/-- Disable events. -/
def disable : Graph → List EventId → Option Graph
  | graph, [] => some graph
  | graph, event :: rest =>
    if event < graph.numEvents then disable (graph.setEnabled event false) rest else none

/-- Disable the events of which a condition holds. -/
def disableIf (session : Session) (condition : Graph → EventId → Option Bool) :
    Option (Session × Nat) := do
  let events ← matching session.graph condition (List.range session.graph.numEvents)
  let graph ← disable session.graph events
  some ({ session with graph }, events.length)

/-- Whether an event is of a kind. -/
def isOfKind (kind : Kind) (graph : Graph) (event : EventId) : Option Bool :=
  graph.events[event]?.map (·.kind == kind)

/-- Whether the target of an event has a name that contains the fragment. -/
def isTo (fragment : String) (graph : Graph) (event : EventId) : Option Bool := do
  let target ← target graph event
  let name ← name graph target
  some (Text.contains name fragment)

/-- Add an event, between two entities. -/
def addEvent (session : Session) (source target : EntityId) (kind : Kind)
    (location : Option Location) : Option Session :=
  if source < session.graph.numEntities ∧ target < session.graph.numEntities then
    some (session.addEvent source target kind location)
  else none

/-- Carry out a command. -/
def apply (session : Session) : Session.Command → Option (Session × Session.Outcome)
  | .step => (step session).map (·, .done)
  | .stepBack => (stepBack session).map (·, .done)
  | .stepN count => (stepLoop count 0 session).map Session.counted
  | .stepBackN count => (stepBackLoop count 0 session).map Session.counted
  | .stepOver => (stepOverLoop session.depth (session.graph.numEvents + 1) 0 session).map
      Session.counted
  | .continueToEnd => (stepLoop Text.maxWord 0 session).map Session.counted
  | .rewind => (stepBackLoop Text.maxWord 0 session).map Session.counted
  | .reset => (reset session).map (·, .done)
  | .disableKind kind => (disableIf session (isOfKind kind)).map Session.counted
  | .disableTo fragment => (disableIf session (isTo fragment)).map Session.counted
  | .disableIf condition =>
    (disableIf session fun graph event => some (condition graph event)).map Session.counted
  | .addEntity name => some (session.addEntity name, .entity session.graph.numEntities)
  | .addEvent source target kind location =>
    (addEvent session source target kind location).map (·, .event session.graph.numEvents)

/-- A checked condition picks the events of the graph that the condition holds of. -/
theorem matching_eq {graph : Graph} {checked : Graph → EventId → Option Bool}
    {condition : Graph → EventId → Bool} {events : List EventId}
    (inside : ∀ event ∈ events, event < graph.numEvents)
    (same : ∀ event < graph.numEvents, checked graph event = some (condition graph event)) :
    matching graph checked events =
      some (events.filter fun event => graph.isEnabled event && condition graph event) := by
  induction events with
  | nil => rfl
  | cons event rest ih =>
    obtain ⟨first, later⟩ := List.forall_mem_cons.mp inside
    have others := ih later
    cases marked : graph.isEnabled event <;> cases holds : condition graph event <;>
      simp [matching, isEnabled_eq first, same event first, marked, holds, others]

/-- Events of the graph are disabled with every check passed. -/
theorem disable_eq {graph : Graph} {events : List EventId}
    (inside : ∀ event ∈ events, event < graph.numEvents) :
    disable graph events = some (graph.disable events) := by
  induction events generalizing graph with
  | nil => rfl
  | cons event rest ih =>
    obtain ⟨first, later⟩ := List.forall_mem_cons.mp inside
    rw [disable, if_pos first]
    refine ih fun other listed => ?_
    rw [Graph.numEvents_setEnabled]
    exact later other listed

/-- A filter by a checked condition is the filter by the condition. -/
theorem disableIf_eq (session : Session) (checked : Graph → EventId → Option Bool)
    (condition : Graph → EventId → Bool)
    (same : ∀ event < session.graph.numEvents,
      checked session.graph event = some (condition session.graph event)) :
    disableIf session checked = some (session.disableIf condition) := by
  have found := matching_eq (fun event => List.mem_range.mp) same
  have all : ∀ event ∈ session.graph.matching condition, event < session.graph.numEvents :=
    fun event listed => List.mem_range.mp (List.mem_filter.mp listed).1
  have marked := disable_eq all
  rw [← Graph.matching] at found
  simp [disableIf, Session.disableIf, Graph.disableIf, found, marked]

/-- The kind of an event of the graph is found. -/
theorem isOfKind_eq {graph : Graph} {event : EventId} (inside : event < graph.numEvents)
    (kind : Kind) : isOfKind kind graph event = some ((Filter.kind kind).holds graph event) := by
  have present := Array.getElem?_eq_getElem inside
  simp [isOfKind, Filter.holds, present]

/-- The name of the target of an event of a well formed graph is found. -/
theorem isTo_eq {graph : Graph} (wellFormed : graph.WellFormed) {event : EventId}
    (inside : event < graph.numEvents) (fragment : String) :
    isTo fragment graph event = some ((Filter.targetContains fragment).holds graph event) := by
  have named := name_eq (wellFormed.target_lt event inside)
  simp [isTo, Filter.holds, target_eq inside, named]

/-- A command names no entity that was not given out. -/
def Issued (graph : Graph) : Session.Command → Prop
  | .addEvent source target _ _ => source < graph.numEntities ∧ target < graph.numEntities
  | _ => True

/-- All checks of a command succeed, and then it does what it does without checks. -/
theorem apply_eq {session : Session} (reachable : session.Reachable) {command : Session.Command}
    (issued : Issued session.graph command) :
    apply session command = some (session.apply command) := by
  have settled := stable reachable
  cases command with
  | step => simp [apply, Session.apply, step_eq settled]
  | stepBack => simp [apply, Session.apply, stepBack_eq settled]
  | stepN count => simp [apply, Session.apply, Session.stepN, stepLoop_eq reachable]
  | stepBackN count => simp [apply, Session.apply, Session.stepBackN, stepBackLoop_eq reachable]
  | stepOver => simp [apply, Session.apply, Session.stepOver, stepOverLoop_eq reachable]
  | continueToEnd =>
    simp [apply, Session.apply, Session.continueToEnd, Session.stepN, stepLoop_eq reachable]
  | rewind =>
    simp [apply, Session.apply, Session.rewind, Session.stepBackN, stepBackLoop_eq reachable]
  | reset => simp [apply, Session.apply, reset, root, settled.rooted]
  | disableKind kind =>
    have filtered := disableIf_eq session (isOfKind kind)
      (fun graph event => (Filter.kind kind).holds graph event)
      fun event inside => isOfKind_eq inside kind
    simp [apply, Session.apply, Session.disableKind, filtered]
  | disableTo fragment =>
    have filtered := disableIf_eq session (isTo fragment)
      (fun graph event => (Filter.targetContains fragment).holds graph event)
      fun event inside => isTo_eq settled.wellFormed inside fragment
    simp [apply, Session.apply, Session.disableTo, filtered]
  | disableIf condition =>
    have filtered := disableIf_eq session (fun graph event => some (condition graph event))
      condition fun _ _ => rfl
    simp [apply, Session.apply, filtered]
  | addEntity name => rfl
  | addEvent source target kind location =>
    have known : source < session.graph.numEntities ∧ target < session.graph.numEntities := issued
    have accepted : ¬ (session.graph.numEntities ≤ source ∨ session.graph.numEntities ≤ target) :=
      not_or.mpr ⟨Nat.not_le.mpr known.1, Nat.not_le.mpr known.2⟩
    simp only [apply, addEvent, if_pos known, Option.map_some, Session.apply, Session.addEvent?,
      Graph.addEvent?, if_neg accepted]
    rfl

end Retrace.Checked
