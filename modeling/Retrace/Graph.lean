import Retrace.Record

/-!
# Instantiation graphs

A directed multigraph. Its vertices are the entities of a trace and its edges are the events that
instantiated them; both are numbered from zero in the order in which they were added, and neither
is ever removed. An entity keeps the events that leave it and the events that enter it, each list
in recording order. An event can be disabled, and disabling by a condition never enables one.

Operations that take a number from outside answer `none` or an error when the graph never gave
that number out.
-/
namespace Retrace

/-- Number of an entity in a graph. -/
abbrev EntityId := Nat

/-- Number of an event in a graph. -/
abbrev EventId := Nat

/-- What was instantiated, with the events at it. -/
structure Entity where
  /-- Name of the entity in the traced program. -/
  name : String
  /-- Events that leave the entity, in recording order. -/
  outgoing : Array EventId := #[]
  /-- Events that enter the entity, in recording order. -/
  incoming : Array EventId := #[]
  deriving DecidableEq, Repr

/-- One instantiation: processing `source` made the compiler instantiate `target`. -/
structure Event where
  /-- The entity that was being processed. -/
  source : EntityId
  /-- The entity that was instantiated. -/
  target : EntityId
  /-- Why it was instantiated. -/
  kind : Kind
  /-- The code that asked for it; absent for an event that no code asked for. -/
  location : Option Location
  /-- Whether a walk may enter the event. -/
  enabled : Bool := true
  deriving DecidableEq, Repr

/-- Entities and the events between them. -/
structure Graph where
  /-- Entities by number. -/
  entities : Array Entity := #[]
  /-- Events by number. -/
  events : Array Event := #[]
  deriving DecidableEq, Repr

/-- Ends of a refused event: at least one is no entity of the graph. -/
structure UnknownEnds where
  /-- The source asked for. -/
  source : EntityId
  /-- The target asked for. -/
  target : EntityId
  /-- Number of entities that the graph has. -/
  numEntities : Nat
  deriving DecidableEq, Repr

/-- What is said of a refused event. -/
def UnknownEnds.message (ends : UnknownEnds) : String :=
  "edge endpoints v" ++ toString ends.source ++ " -> v" ++ toString ends.target ++
    " out of range (graph has " ++ toString ends.numEntities ++ " vertices)"

namespace Graph

/-- The graph without entities. -/
def empty : Graph := {}

/-- Number of entities. -/
def numEntities (graph : Graph) : Nat := graph.entities.size

/-- Number of events. -/
def numEvents (graph : Graph) : Nat := graph.events.size

/-- Number of disabled events. -/
def numDisabled (graph : Graph) : Nat := graph.events.countP fun event => !event.enabled

/-- Name of an entity; empty for a number that is no entity. -/
def name (graph : Graph) (entity : EntityId) : String :=
  (graph.entities[entity]?.map (·.name)).getD ""

/-- Events that leave an entity, in recording order. -/
def outgoing (graph : Graph) (entity : EntityId) : List EventId :=
  (graph.entities[entity]?.map (·.outgoing.toList)).getD []

/-- Events that enter an entity, in recording order. -/
def incoming (graph : Graph) (entity : EntityId) : List EventId :=
  (graph.entities[entity]?.map (·.incoming.toList)).getD []

/-- Entity that an event leaves; the first entity for a number that is no event. -/
def source (graph : Graph) (event : EventId) : EntityId :=
  (graph.events[event]?.map (·.source)).getD 0

/-- Entity that an event enters; the first entity for a number that is no event. -/
def target (graph : Graph) (event : EventId) : EntityId :=
  (graph.events[event]?.map (·.target)).getD 0

/-- Point of instantiation of an event, when it has one. -/
def location? (graph : Graph) (event : EventId) : Option Location :=
  graph.events[event]?.bind (·.location)

/-- Whether a number is an event that is enabled. -/
def isEnabled (graph : Graph) (event : EventId) : Bool :=
  graph.events[event]?.any (·.enabled)

/-- Enabled events that leave an entity, in recording order. -/
def enabledOutgoing (graph : Graph) (entity : EntityId) : List EventId :=
  (graph.outgoing entity).filter graph.isEnabled

/-- The graph with one more entity, whose number is the former number of entities. -/
def addEntity (graph : Graph) (name : String) : Graph :=
  { graph with entities := graph.entities.push { name } }

/-- The graph with one more event, enabled, whose number is the former number of events. Both
ends are entities of the graph. -/
def addEvent (graph : Graph) (source target : EntityId) (kind : Kind)
    (location : Option Location) : Graph :=
  let event := graph.numEvents
  { entities :=
      (graph.entities.modify source fun entity =>
        { entity with outgoing := entity.outgoing.push event }).modify target fun entity =>
          { entity with incoming := entity.incoming.push event }
    events := graph.events.push { source, target, kind, location } }

/-- The graph with one more event, refused unless both ends are entities of the graph. -/
def addEvent? (graph : Graph) (source target : EntityId) (kind : Kind)
    (location : Option Location) : Except UnknownEnds Graph :=
  if graph.numEntities ≤ source ∨ graph.numEntities ≤ target then
    .error ⟨source, target, graph.numEntities⟩
  else
    .ok (graph.addEvent source target kind location)

/-- The graph with an entity renamed, when there is such an entity. -/
def rename? (graph : Graph) (entity : EntityId) (name : String) : Option Graph :=
  if graph.numEntities ≤ entity then none
  else some { graph with entities := graph.entities.modify entity ({ · with name }) }

/-- The graph with the mark of an event written. -/
def setEnabled (graph : Graph) (event : EventId) (enabled : Bool) : Graph :=
  { graph with events := graph.events.modify event ({ · with enabled }) }

/-- The graph with the mark of an event written, when there is such an event. -/
def setEnabled? (graph : Graph) (event : EventId) (enabled : Bool) : Option Graph :=
  if graph.numEvents ≤ event then none else some (graph.setEnabled event enabled)

/-- The enabled events of which a condition holds, in recording order. The condition is asked of
enabled events only, and of the graph as it stands. -/
def matching (graph : Graph) (condition : Graph → EventId → Bool) : List EventId :=
  (List.range graph.numEvents).filter fun event =>
    graph.isEnabled event && condition graph event

/-- The graph with each of the listed events disabled. -/
def disable (graph : Graph) (events : List EventId) : Graph :=
  events.foldl (fun graph event => graph.setEnabled event false) graph

/-- The graph with every event disabled of which the condition holds, and how many of them were
enabled. -/
def disableIf (graph : Graph) (condition : Graph → EventId → Bool) : Graph × Nat :=
  let events := graph.matching condition
  (graph.disable events, events.length)

/-! ## Sizes -/

/-- Adding an entity adds one entity. -/
@[simp] theorem numEntities_addEntity (graph : Graph) (name : String) :
    (graph.addEntity name).numEntities = graph.numEntities + 1 := by
  simp [addEntity, numEntities]

/-- Adding an entity adds no event. -/
@[simp] theorem numEvents_addEntity (graph : Graph) (name : String) :
    (graph.addEntity name).numEvents = graph.numEvents := rfl

/-- Adding an event adds no entity. -/
@[simp] theorem numEntities_addEvent (graph : Graph) (source target : EntityId) (kind : Kind)
    (location : Option Location) :
    (graph.addEvent source target kind location).numEntities = graph.numEntities := by
  simp [addEvent, numEntities]

/-- Adding an event adds one event. -/
@[simp] theorem numEvents_addEvent (graph : Graph) (source target : EntityId) (kind : Kind)
    (location : Option Location) :
    (graph.addEvent source target kind location).numEvents = graph.numEvents + 1 := by
  simp [addEvent, numEvents]

/-- Writing a mark adds no event. -/
@[simp] theorem numEvents_setEnabled (graph : Graph) (event : EventId) (enabled : Bool) :
    (graph.setEnabled event enabled).numEvents = graph.numEvents := by
  simp [setEnabled, numEvents]

/-- An event is refused exactly when one of its ends is no entity. -/
theorem addEvent?_eq_error_iff (graph : Graph) (source target : EntityId) (kind : Kind)
    (location : Option Location) :
    (∃ ends, graph.addEvent? source target kind location = .error ends) ↔
      graph.numEntities ≤ source ∨ graph.numEntities ≤ target := by
  unfold addEvent?
  split <;> simp_all

/-! ## Operations

Everything that changes a graph, as data: a run of a graph is a list of operations. An operation on
a number that the graph never gave out is refused and changes nothing. -/

/-- A change of a graph. -/
inductive Operation where
  /-- Add an entity. -/
  | addEntity (name : String)
  /-- Add an event between two entities. -/
  | addEvent (source target : EntityId) (kind : Kind) (location : Option Location)
  /-- Give an entity another name. -/
  | rename (entity : EntityId) (name : String)
  /-- Write the mark of an event. -/
  | setEnabled (event : EventId) (enabled : Bool)
  /-- Disable the events of which a condition holds. -/
  | disableIf (condition : Graph → EventId → Bool)

/-- What an operation gives back. -/
inductive Answer where
  /-- Nothing. -/
  | done
  /-- Number of the added entity. -/
  | entity (entity : EntityId)
  /-- Number of the added event. -/
  | event (event : EventId)
  /-- Number of events that were disabled. -/
  | count (count : Nat)
  /-- The event was refused for its ends. -/
  | refused (ends : UnknownEnds)
  /-- The number was never given out. -/
  | unknown
  deriving DecidableEq, Repr

/-- Carry out an operation. -/
def apply (graph : Graph) : Operation → Graph × Answer
  | .addEntity name => (graph.addEntity name, .entity graph.numEntities)
  | .addEvent source target kind location =>
    match graph.addEvent? source target kind location with
    | .ok grown => (grown, .event graph.numEvents)
    | .error ends => (graph, .refused ends)
  | .rename entity name =>
    match graph.rename? entity name with
    | some renamed => (renamed, .done)
    | none => (graph, .unknown)
  | .setEnabled event enabled =>
    match graph.setEnabled? event enabled with
    | some marked => (marked, .done)
    | none => (graph, .unknown)
  | .disableIf condition =>
    let (graph, count) := graph.disableIf condition
    (graph, .count count)

/-- The graph after a list of operations. -/
def run (graph : Graph) (operations : List Operation) : Graph :=
  operations.foldl (fun graph operation => (graph.apply operation).1) graph

end Graph

end Retrace
