import Retrace.Filter
import Retrace.Walk

/-!
# Sessions

A session is a graph, the result of the evaluation that was traced, a walk through the graph and
the log of the moves that the walk has made. Every step adds its move to the log and every step
back takes the newest move out of it. Filters and additions change the graph in the middle of a
walk without touching where the walk stands.
-/
namespace Retrace

/-- A traced program with a walk through it. -/
structure Session where
  /-- Entities and events; the first entity is the root. -/
  graph : Graph
  /-- Result of the evaluation. -/
  result : String
  /-- Where the walk stands. -/
  walk : Walk
  /-- Moves made and not taken back, the newest first. -/
  log : List Move
  deriving DecidableEq, Repr

namespace Session

/-- A session on a graph, at the start of its walk. -/
def ofGraph (graph : Graph) (result : String) : Session :=
  { graph, result, walk := .start graph.numEntities, log := [] }

/-- A session whose graph holds only the root. -/
def new (rootName result : String) : Session :=
  ofGraph (Graph.empty.addEntity rootName) result

/-- The session with one more entity, undiscovered. -/
def addEntity (session : Session) (name : String) : Session :=
  { session with graph := session.graph.addEntity name, walk := session.walk.grow }

/-- The session with one more event between entities of its graph. -/
def addEvent (session : Session) (source target : EntityId) (kind : Kind)
    (location : Option Location) : Session :=
  { session with graph := session.graph.addEvent source target kind location }

/-- The session with one more event, refused unless both ends are entities of its graph. -/
def addEvent? (session : Session) (source target : EntityId) (kind : Kind)
    (location : Option Location) : Except UnknownEnds Session :=
  (session.graph.addEvent? source target kind location).map ({ session with graph := · })

/-- The session at the start of its walk, its log empty and its graph unchanged. -/
def reset (session : Session) : Session :=
  { session with walk := .start session.graph.numEntities, log := [] }

/-- Whether the walk has left the root frame. -/
def isFinished (session : Session) : Bool := session.walk.stack.isEmpty

/-- Whether no move is left to take back. -/
def isAtStart (session : Session) : Bool := session.log.isEmpty

/-- Number of moves that can be taken back. -/
def steps (session : Session) : Nat := session.log.length

/-- Number of events between the root frame and the top frame, both included. -/
def depth (session : Session) : Nat := session.walk.trail.length

/-- Events from the root to the current entity. -/
def backtrace (session : Session) : List EventId := session.walk.trail.reverse

/-- The entity where the walk stands. -/
def currentEntity (session : Session) : EntityId := session.walk.currentEntity session.graph

/-- The event of the top frame. -/
def currentEvent? (session : Session) : Option EventId := session.walk.currentEvent?

/-! ## Filtering -/

/-- Disable the events of which a condition holds, and how many were enabled before. -/
def disableIf (session : Session) (condition : Graph → EventId → Bool) : Session × Nat :=
  let (graph, count) := session.graph.disableIf condition
  ({ session with graph }, count)

/-- Disable the events of a kind. -/
def disableKind (session : Session) (kind : Kind) : Session × Nat :=
  session.disableIf fun graph event => (Filter.kind kind).holds graph event

/-- Disable the events whose target has a name that contains the fragment. -/
def disableTo (session : Session) (fragment : String) : Session × Nat :=
  session.disableIf fun graph event => (Filter.targetContains fragment).holds graph event

/-! ## Stepping -/

/-- Go on by one move; a finished session stays as it is. -/
def step (session : Session) : Session :=
  if session.isFinished then session
  else
    let (walk, move) := session.walk.advance session.graph
    { session with walk, log := move :: session.log }

/-- Take back the newest move; a session at its start stays as it is. -/
def stepBack (session : Session) : Session :=
  match session.log with
  | [] => session
  | move :: log => { session with walk := session.walk.undo move, log }

/-- Step while fewer than `count` steps are taken and the walk is not finished; `taken` counts
the steps. -/
def stepLoop : Nat → Nat → Session → Session × Nat
  | 0, taken, session => (session, taken)
  | count + 1, taken, session =>
    if session.isFinished then (session, taken) else stepLoop count (taken + 1) session.step

/-- Step up to `count` times, and how many steps were taken. -/
def stepN (session : Session) (count : Nat) : Session × Nat := stepLoop count 0 session

/-- Step back while fewer than `count` steps are undone and some are left; `undone` counts
them. -/
def stepBackLoop : Nat → Nat → Session → Session × Nat
  | 0, undone, session => (session, undone)
  | count + 1, undone, session =>
    if session.isAtStart then (session, undone)
    else stepBackLoop count (undone + 1) session.stepBack

/-- Step back up to `count` times, and how many steps were undone. -/
def stepBackN (session : Session) (count : Nat) : Session × Nat := stepBackLoop count 0 session

/-- Step until the walk is finished, at most as often as a word can count, and how many steps were
taken. -/
def continueToEnd (session : Session) : Session × Nat := session.stepN Text.maxWord

/-- Take back every move, at most as many as a word can count, and how many there were. -/
def rewind (session : Session) : Session × Nat := session.stepBackN Text.maxWord

/-- Step until the walk is finished or stands no deeper than `limit`; `taken` counts the steps
and `fuel` bounds them. -/
def stepOverLoop (limit : Nat) : Nat → Nat → Session → Session × Nat
  | 0, taken, session => (session, taken)
  | fuel + 1, taken, session =>
    if session.isFinished then (session, taken)
    else
      let session := session.step
      if session.depth ≤ limit then (session, taken + 1)
      else stepOverLoop limit fuel (taken + 1) session

/-- Step at least once and on until the walk is finished or stands no deeper than before, and how
many steps were taken. No walk enters an event twice, so one step for every event and one to end
the walk are enough. -/
def stepOver (session : Session) : Session × Nat :=
  stepOverLoop session.depth (session.graph.numEvents + 1) 0 session

/-- Step to the end, and the event entered by each step on the way; `fuel` bounds the steps. -/
def remainingLoop : Nat → Session → Session × List EventId
  | 0, session => (session, [])
  | fuel + 1, session =>
    if session.isFinished then (session, [])
    else
      let session := session.step
      let (last, events) := remainingLoop fuel session
      (last, session.currentEvent?.toList ++ events)

/-- Step to the end, and the events entered on the way in order. -/
def remaining (session : Session) : Session × List EventId :=
  remainingLoop (session.graph.numEvents + 1) session

end Session

end Retrace
