import Retrace.Session

/-!
# Commands

Everything that changes a session, as data: a run of a session is a list of commands. A command
that names an entity the session never gave out is refused and changes nothing.
-/
namespace Retrace.Session

/-- A change of a session. -/
inductive Command where
  /-- Go on by one move. -/
  | step
  /-- Take back the newest move. -/
  | stepBack
  /-- Step up to `count` times. -/
  | stepN (count : Nat)
  /-- Step back up to `count` times. -/
  | stepBackN (count : Nat)
  /-- Step over what the current entity instantiates. -/
  | stepOver
  /-- Step until the walk is finished. -/
  | continueToEnd
  /-- Take back every move. -/
  | rewind
  /-- Forget the moves and go to the start. -/
  | reset
  /-- Disable the events of a kind. -/
  | disableKind (kind : Kind)
  /-- Disable the events whose target has a name that contains the fragment. -/
  | disableTo (fragment : String)
  /-- Disable the events of which a condition holds. -/
  | disableIf (condition : Graph → EventId → Bool)
  /-- Add an entity. -/
  | addEntity (name : String)
  /-- Add an event between two entities. -/
  | addEvent (source target : EntityId) (kind : Kind) (location : Option Location)

/-- What a command reports. -/
inductive Outcome where
  /-- The command has nothing to report. -/
  | done
  /-- A number of steps or of events. -/
  | count (count : Nat)
  /-- Number of the added entity. -/
  | entity (entity : EntityId)
  /-- Number of the added event. -/
  | event (event : EventId)
  /-- The command was refused. -/
  | refused (ends : UnknownEnds)
  deriving DecidableEq, Repr

/-- A session with a number to report. -/
def counted (answer : Session × Nat) : Session × Outcome := (answer.1, .count answer.2)

/-- Carry out a command. -/
def apply (session : Session) : Command → Session × Outcome
  | .step => (session.step, .done)
  | .stepBack => (session.stepBack, .done)
  | .stepN count => counted (session.stepN count)
  | .stepBackN count => counted (session.stepBackN count)
  | .stepOver => counted session.stepOver
  | .continueToEnd => counted session.continueToEnd
  | .rewind => counted session.rewind
  | .reset => (session.reset, .done)
  | .disableKind kind => counted (session.disableKind kind)
  | .disableTo fragment => counted (session.disableTo fragment)
  | .disableIf condition => counted (session.disableIf condition)
  | .addEntity name => (session.addEntity name, .entity session.graph.numEntities)
  | .addEvent source target kind location =>
    match session.addEvent? source target kind location with
    | .ok grown => (grown, .event session.graph.numEvents)
    | .error ends => (session, .refused ends)

/-- The session after a list of commands. -/
def run (session : Session) (commands : List Command) : Session :=
  commands.foldl (fun session command => (session.apply command).1) session

end Retrace.Session
