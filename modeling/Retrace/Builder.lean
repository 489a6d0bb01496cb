import Retrace.Session
import Retrace.TraceError

/-!
# Building sessions from records

A builder takes the records of a trace one by one. It declares each number once, refers only to
declared numbers, and takes nothing after the result. It checks a record before it works on the
session, so a record that it rejects leaves it as it was.
-/
namespace Retrace

/-- A session under construction. -/
structure Builder where
  /-- The session so far, at the start of its walk. -/
  session : Session
  /-- The entity of each declared number, the newest first. -/
  declared : List (LocalId × EntityId)
  /-- The result, once it is recorded. -/
  result : Option String
  deriving DecidableEq, Repr

namespace Builder

/-- The builder that has taken no record. -/
def new (rootName : String) : Builder where
  session := .new rootName ""
  declared := [(rootId, root)]
  result := none

/-- The entity of a number, when it is declared. -/
def entity? (builder : Builder) (id : LocalId) : Option EntityId := builder.declared.lookup id

/-! ## Taking records -/

/-- A part of the work on a record. It may fail, and what was done before it fails stays done. -/
abbrev Action := ExceptT TraceError (StateM Builder)

/-- The entity of a number that a record at `position` uses. -/
def lookup (id : LocalId) (position : Position) : Action EntityId := do
  match (← get).entity? id with
  | some entity => return entity
  | none => throw (.undeclared id position)

/-- Add an entity to the session. -/
def addEntity (name : String) : Action EntityId :=
  modifyGet fun builder =>
    (builder.session.graph.numEntities,
      { builder with session := builder.session.addEntity name })

/-- Take a declaration. -/
def declare (id : LocalId) (name : String) (position : Position) : Action Unit := do
  if id = rootId then throw (.reserved position)
  if ((← get).entity? id).isSome then throw (.duplicate id position)
  let entity ← addEntity name
  modify fun builder => { builder with declared := (id, entity) :: builder.declared }

/-- Take a record. -/
def take (record : Placed Record) : Action Unit := do
  if (← get).result.isSome then throw (.trailing record.position)
  match record.value with
  | .entity id name => declare id name record.position
  | .instantiation source target kind location =>
    let source ← lookup source record.position
    let target ← lookup target record.position
    modify fun builder =>
      { builder with session := builder.session.addEvent source target kind location }
  | .result text => modify fun builder => { builder with result := some text }

/-- What comes of sending a record to a builder, and the builder after it. -/
def send (builder : Builder) (record : Placed Record) : Except TraceError Unit × Builder :=
  (take record).run.run builder

/-- The builder that has taken a further record. -/
def add (builder : Builder) (record : Placed Record) : Except TraceError Builder :=
  let (outcome, next) := builder.send record
  outcome.map fun () => next

/-- Take records in order, up to the first that is rejected. -/
def addAll (builder : Builder) (records : List (Placed Record)) : Except TraceError Builder :=
  records.foldlM add builder

/-- The session that was built. A result given here goes before one that was recorded. -/
def finish (builder : Builder) (result : Option String) : Except TraceError Session :=
  match result.or builder.result with
  | some result => .ok { builder.session with result }
  | none => .error .missingResult

end Builder

end Retrace
