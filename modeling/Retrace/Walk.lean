import Retrace.Graph

/-!
# Walks and their undoing

A walk goes through a graph depth first from its first entity, the root. Its state is which
entities it has discovered, through which event it discovered each, and the stack of frames it
stands in. The lowest frame is the root frame; every other frame was entered through an event.

A move leaves frames from the top of the stack and may then enter one event. `Move` keeps exactly
these edits, and `Walk.undo` takes them back in reverse, so that no former state is stored.
-/
namespace Retrace

/-- The root of every walk is the first entity of its graph. -/
def root : EntityId := 0

/-- A frame of the stack of a walk. -/
inductive Frame where
  /-- The frame in which a walk starts. -/
  | root
  /-- The frame entered through an event. -/
  | via (event : EventId)
  deriving DecidableEq, Repr

namespace Frame

/-- The event through which a frame was entered; the root frame has none. -/
def event? : Frame → Option EventId
  | root => none
  | via event => some event

/-- The entity that a frame is about. -/
def entity (graph : Graph) : Frame → EntityId
  | root => Retrace.root
  | via event => graph.target event

end Frame

/-- The discovery of an entity by a move. -/
structure Discovery where
  /-- The entity that was discovered. -/
  entity : EntityId
  /-- The event noted for the entity before. -/
  previousParent : Option EventId
  deriving DecidableEq, Repr

/-- The descent of a move into an event. -/
structure Descent where
  /-- The event that was entered. -/
  event : EventId
  /-- What the descent discovered; nothing when its target was discovered before. -/
  discovery : Option Discovery
  deriving DecidableEq, Repr

/-- What one move changed. -/
structure Move where
  /-- The frames left, in the order in which they were left. -/
  popped : List Frame := []
  /-- The event entered after that; nothing when the walk ended. -/
  descent : Option Descent := none
  deriving DecidableEq, Repr

/-- State of a walk. -/
structure Walk where
  /-- Whether each entity is discovered. -/
  discovered : Array Bool
  /-- The event that discovered each entity. -/
  parent : Array (Option EventId)
  /-- The frames, the top one first; empty once the walk has ended. -/
  stack : List Frame
  deriving DecidableEq, Repr

namespace Walk

/-- The walk at the root of a graph of `numEntities` entities: only the root is discovered. -/
def start (numEntities : Nat) : Walk where
  discovered := (Array.replicate numEntities false).setIfInBounds root true
  parent := Array.replicate numEntities none
  stack := [.root]

/-- Room for one more entity, undiscovered. -/
def grow (walk : Walk) : Walk :=
  { walk with discovered := walk.discovered.push false, parent := walk.parent.push none }

/-- Whether an entity is discovered. -/
def isDiscovered (walk : Walk) (entity : EntityId) : Bool :=
  walk.discovered[entity]?.getD false

/-- The event that discovered an entity. -/
def parentOf (walk : Walk) (entity : EntityId) : Option EventId :=
  walk.parent[entity]?.getD none

/-- Number of discovered entities. -/
def numDiscovered (walk : Walk) : Nat := walk.discovered.countP id

/-- The events of the frames, the innermost first. -/
def trail (walk : Walk) : List EventId := walk.stack.filterMap Frame.event?

/-- The event of the top frame. -/
def currentEvent? (walk : Walk) : Option EventId := walk.stack.head?.bind Frame.event?

/-- The entity of the top frame; the root once the walk has ended. -/
def currentEntity (walk : Walk) (graph : Graph) : EntityId :=
  (walk.stack.head?.map (·.entity graph)).getD root

/-- Whether a frame was entered through an event that did not discover its target. The events of
such a frame are walked in the frame that did. -/
def isLeaf (walk : Walk) (graph : Graph) : Frame → Bool
  | .root => false
  | .via event => walk.parentOf (graph.target event) != some event

/-- The first enabled event that leaves an entity, or the first one after `resume` if that event
leaves the entity too. -/
def nextEnabled? (graph : Graph) (entity : EntityId) (resume : Option EventId) :
    Option EventId :=
  let events := graph.outgoing entity
  let remaining :=
    match resume with
    | none => events
    | some event => if events.contains event then (events.dropWhile (· != event)).tail else events
  remaining.find? graph.isEnabled

/-- The event that a walk enters next from a frame. A frame reached by a descent and not by going
back has `resume = none`; as a leaf it is left at once. -/
def nextEvent? (walk : Walk) (graph : Graph) (frame : Frame) (resume : Option EventId) :
    Option EventId :=
  if resume.isNone && walk.isLeaf graph frame then none
  else nextEnabled? graph (frame.entity graph) resume

/-- The frames that a move leaves and, unless it leaves all of them, the event it then enters and
the frames it stays in. The search starts at the top of `stack`, and in each lower frame after the
event of the frame left before. -/
def backtrack (walk : Walk) (graph : Graph) :
    Option EventId → List Frame → List Frame × Option (EventId × List Frame)
  | _, [] => ([], none)
  | resume, frame :: below =>
    match walk.nextEvent? graph frame resume with
    | some event => ([], some (event, frame :: below))
    | none =>
      let (popped, found) := backtrack walk graph frame.event? below
      (frame :: popped, found)

/-- Enter an event. An undiscovered target is discovered, with the event as its parent; a
discovered one is entered as a leaf. -/
def enter (walk : Walk) (event : EventId) (target : EntityId) : Walk × Descent :=
  if walk.isDiscovered target then
    ({ walk with stack := .via event :: walk.stack }, ⟨event, none⟩)
  else
    ({ discovered := walk.discovered.setIfInBounds target true
       parent := walk.parent.setIfInBounds target (some event)
       stack := .via event :: walk.stack },
      ⟨event, some ⟨target, walk.parentOf target⟩⟩)

/-- Go on by one move, and what the move changed. -/
def advance (walk : Walk) (graph : Graph) : Walk × Move :=
  match walk.backtrack graph none walk.stack with
  | (popped, none) => ({ walk with stack := [] }, ⟨popped, none⟩)
  | (popped, some (event, stack)) =>
    let (walk, descent) := { walk with stack }.enter event (graph.target event)
    (walk, ⟨popped, some descent⟩)

/-- Take back a descent: its frame is left, and what it discovered is undiscovered. -/
def ascend (walk : Walk) (descent : Descent) : Walk :=
  match descent.discovery with
  | none => { walk with stack := walk.stack.tail }
  | some discovery =>
    { discovered := walk.discovered.setIfInBounds discovery.entity false
      parent := walk.parent.setIfInBounds discovery.entity discovery.previousParent
      stack := walk.stack.tail }

/-- Take back a move: first its descent, then the frames it left, the last one first. -/
def undo (walk : Walk) (move : Move) : Walk :=
  let walk := (move.descent.map walk.ascend).getD walk
  { walk with stack := move.popped ++ walk.stack }

end Walk

end Retrace
