import Retrace.Forward
import Retrace.Proofs.Caching
import Retrace.Proofs.Checked.Session

/-!
# Forward traces with checked access

The listing of a forward trace looks up the target of every event it comes to, and whether that
target was met. All of them exist in a well formed graph (`forward_eq`). The lines of a trace are
about events of the graph and stand at a depth of at least one (`Listable`), and so do those that a
cache keeps, whatever the graph has grown to since.
-/
namespace Retrace.Checked

/-! ## Traces -/

/-- Those of some events that are enabled. -/
def enabledAmong (graph : Graph) : List EventId → Option (List EventId)
  | [] => some []
  | event :: rest => do
    let enabled ← isEnabled graph event
    let others ← enabledAmong graph rest
    some (if enabled then event :: others else others)

/-- The enabled events that leave an entity. -/
def enabledOutgoing (graph : Graph) (entity : EntityId) : Option (List EventId) := do
  let events ← outgoing graph entity
  enabledAmong graph events

/-- List the pending events in order, each followed by the events below its target. -/
def forwardLoop (graph : Graph) (bound : Option Nat) (met : Array Bool) :
    List (Nat × EventId) → Option (List ForwardLine)
  | [] => some []
  | (depth, event) :: pending =>
    match target graph event with
    | none => none
    | some target =>
      if inside : target < met.size then
        if _met : met[target] = true then
          (forwardLoop graph bound met pending).map (⟨depth, event, true⟩ :: ·)
        else if bound.any (· ≤ depth) then
          (forwardLoop graph bound met pending).map (⟨depth, event, false⟩ :: ·)
        else
          match enabledOutgoing graph target with
          | none => none
          | some below =>
            (forwardLoop graph bound (met.setIfInBounds target true)
              (below.map (depth + 1, ·) ++ pending)).map (⟨depth, event, false⟩ :: ·)
      else none
termination_by pending => (Graph.numUnmet met, pending.length)
decreasing_by
  · exact Prod.Lex.right _ (by simp)
  · exact Prod.Lex.right _ (by simp)
  · exact Prod.Lex.left _ _ (Graph.numUnmet_set_lt (by simp [Graph.isMet, inside, _met]))

/-- The enabled events below an entity. The entity, which is marked as met, is one of the graph. -/
def forward (graph : Graph) (entity : EntityId) (bound : Option Nat) :
    Option (List ForwardLine) :=
  if entity < graph.numEntities then do
    let events ← enabledOutgoing graph entity
    forwardLoop graph bound ((Array.replicate graph.numEntities false).setIfInBounds entity true)
      (events.map (1, ·))
  else none

/-- The entity of the top frame. -/
def currentEntity (session : Session) : Option EntityId :=
  match session.walk.stack with
  | [] => some root
  | frame :: _ => frameEntity session.graph frame

/-- A cache that serves a session. -/
def refresh (cache : ForwardCache) (session : Session) : Option ForwardCache :=
  if cache.key = some session.forwardKey then some cache
  else do
    let entity ← currentEntity session
    let lines ← forward session.graph entity none
    some { key := some session.forwardKey, lines, rebuilds := cache.rebuilds + 1 }

/-- The marks of listed events are found when the events are events of the graph. -/
theorem enabledAmong_eq {graph : Graph} {events : List EventId}
    (inside : ∀ event ∈ events, event < graph.numEvents) :
    enabledAmong graph events = some (events.filter graph.isEnabled) := by
  induction events with
  | nil => rfl
  | cons event rest ih =>
    obtain ⟨first, later⟩ := List.forall_mem_cons.mp inside
    have others := ih later
    cases marked : graph.isEnabled event <;>
      simp [enabledAmong, isEnabled_eq first, marked, others]

/-- What leaves an entity of a well formed graph is found with its marks. -/
theorem enabledOutgoing_eq {graph : Graph} (wellFormed : graph.WellFormed) {entity : EntityId}
    (inside : entity < graph.numEntities) :
    enabledOutgoing graph entity = some (graph.enabledOutgoing entity) := by
  have marked := enabledAmong_eq fun event (listed : event ∈ graph.outgoing entity) =>
    (wellFormed.mem_outgoing.mp listed).1
  simp [enabledOutgoing, outgoing_eq inside, marked, Graph.enabledOutgoing]

/-- The events below an entity are events of the graph. -/
theorem below_lt {graph : Graph} (wellFormed : graph.WellFormed) (entity : EntityId)
    (depth : Nat) :
    ∀ item ∈ (graph.enabledOutgoing entity).map (depth, ·), item.2 < graph.numEvents := by
  intro item listed
  obtain ⟨event, leaves, rfl⟩ := List.mem_map.mp listed
  exact Graph.lt_of_isEnabled (wellFormed.mem_enabledOutgoing.mp leaves).1

/-- They are listed at the depth below it. -/
theorem below_depth (graph : Graph) (entity : EntityId) {depth : Nat} (deep : 1 ≤ depth) :
    ∀ item ∈ (graph.enabledOutgoing entity).map (depth, ·), 1 ≤ item.1 := by
  intro item listed
  obtain ⟨event, _, rfl⟩ := List.mem_map.mp listed
  exact deep

/-- A listing of pending events of the graph finds all that it asks for. -/
theorem forwardLoop_eq {graph : Graph} (wellFormed : graph.WellFormed) {bound : Option Nat}
    {met : Array Bool} {pending : List (Nat × EventId)} (noted : met.size = graph.numEntities)
    (inside : ∀ item ∈ pending, item.2 < graph.numEvents) :
    forwardLoop graph bound met pending = some (graph.forwardLoop bound met pending) := by
  fun_induction graph.forwardLoop bound met pending
  case case1 => rw [forwardLoop]
  case case2 met depth event pending entity known ih =>
    obtain ⟨first, later⟩ := List.forall_mem_cons.mp inside
    have bounded : graph.target event < met.size := noted ▸ wellFormed.target_lt event first
    have marked : met[graph.target event] = true := by
      simpa [Graph.isMet, entity, bounded] using known
    simp only [forwardLoop, target_eq first, bounded, marked, dite_true, ih noted later,
      Option.map_some]
  case case3 met depth event pending entity known deep ih =>
    obtain ⟨first, later⟩ := List.forall_mem_cons.mp inside
    have bounded : graph.target event < met.size := noted ▸ wellFormed.target_lt event first
    have marked : met[graph.target event] = false := by
      simpa [Graph.isMet, entity, bounded] using known
    simp only [forwardLoop, target_eq first, bounded, marked, dite_true, deep, if_true,
      ih noted later, Option.map_some, Bool.false_eq_true, dite_false]
  case case4 met depth event pending entity known deep ih =>
    obtain ⟨first, later⟩ := List.forall_mem_cons.mp inside
    have target_lt := wellFormed.target_lt event first
    have bounded : graph.target event < met.size := noted ▸ target_lt
    have marked : met[graph.target event] = false := by
      simpa [Graph.isMet, entity, bounded] using known
    have below := ih (by rw [Array.size_setIfInBounds]; exact noted)
      (List.forall_mem_append.mpr ⟨below_lt wellFormed _ _, later⟩)
    simp only [forwardLoop, target_eq first, bounded, marked, dite_true, deep, if_false,
      enabledOutgoing_eq wellFormed target_lt, Bool.false_eq_true, dite_false]
    exact congrArg (Option.map (⟨depth, event, false⟩ :: ·)) below

/-- All checks of a listing succeed when it starts at an entity. -/
theorem forward_eq {graph : Graph} (wellFormed : graph.WellFormed) {entity : EntityId}
    (inside : entity < graph.numEntities) (bound : Option Nat) :
    forward graph entity bound = some (graph.forward entity bound) := by
  have noted : ((Array.replicate graph.numEntities false).setIfInBounds entity true).size =
      graph.numEntities := by simp
  simp only [forward, if_pos inside, enabledOutgoing_eq wellFormed inside, Option.bind_eq_bind,
    Option.bind_some]
  exact forwardLoop_eq wellFormed noted (below_lt wellFormed entity 1)

/-- The entity where a stable session stands is found. -/
theorem currentEntity_eq {session : Session} (stable : Stable session) :
    currentEntity session = some session.currentEntity := by
  have stacked := stable.stacked
  rw [currentEntity, Session.currentEntity, Walk.currentEntity]
  cases stack : session.walk.stack with
  | nil => rfl
  | cons frame below =>
    exact frameEntity_eq fun event same => stacked event (by simp [stack, same])

/-- A cache is brought up to date for a reachable session with every check passed. -/
theorem refresh_eq {session : Session} (reachable : session.Reachable) (cache : ForwardCache) :
    refresh cache session = some (cache.refresh session) := by
  have settled := stable reachable
  have listed := forward_eq settled.wellFormed reachable.currentEntity_lt none
  rw [refresh, ForwardCache.refresh]
  split
  · rfl
  · simp [currentEntity_eq settled, listed]

/-! ## Lines -/

/-- A line that a pane can show: its event is one of the graph, and it is not at the depth of the
entity where the trace starts. -/
structure Listable (graph : Graph) (line : ForwardLine) : Prop where
  /-- The event is one of the graph. -/
  event_lt : line.event < graph.numEvents
  /-- The depth is counted from one. -/
  depth_pos : 1 ≤ line.depth

/-- A line about an event of a graph is about one of a larger graph. -/
theorem Listable.mono {graph larger : Graph} (grown : graph.Extends larger) {line : ForwardLine}
    (listable : Listable graph line) : Listable larger line :=
  ⟨Nat.lt_of_lt_of_le listable.event_lt grown.numEvents_le, listable.depth_pos⟩

/-- A listing has lines about events of the graph, at depths from one on. -/
theorem listable_forwardLoop {graph : Graph} (wellFormed : graph.WellFormed) {bound : Option Nat}
    {met : Array Bool} {pending : List (Nat × EventId)}
    (inside : ∀ item ∈ pending, item.2 < graph.numEvents) (deep : ∀ item ∈ pending, 1 ≤ item.1) :
    ∀ line ∈ graph.forwardLoop bound met pending, Listable graph line := by
  fun_induction graph.forwardLoop bound met pending
  case case1 => simp
  case case2 met depth event pending entity known ih =>
    obtain ⟨first, later⟩ := List.forall_mem_cons.mp inside
    obtain ⟨high, higher⟩ := List.forall_mem_cons.mp deep
    exact List.forall_mem_cons.mpr ⟨⟨first, high⟩, ih later higher⟩
  case case3 met depth event pending entity known cut ih =>
    obtain ⟨first, later⟩ := List.forall_mem_cons.mp inside
    obtain ⟨high, higher⟩ := List.forall_mem_cons.mp deep
    exact List.forall_mem_cons.mpr ⟨⟨first, high⟩, ih later higher⟩
  case case4 met depth event pending entity known cut ih =>
    obtain ⟨first, later⟩ := List.forall_mem_cons.mp inside
    obtain ⟨high, higher⟩ := List.forall_mem_cons.mp deep
    exact List.forall_mem_cons.mpr ⟨⟨first, high⟩,
      ih (List.forall_mem_append.mpr ⟨below_lt wellFormed _ _, later⟩)
        (List.forall_mem_append.mpr ⟨below_depth graph _ (Nat.le_add_left 1 depth), higher⟩)⟩

/-- The lines of a forward trace can be shown. -/
theorem listable_forward {graph : Graph} (wellFormed : graph.WellFormed) (entity : EntityId)
    (bound : Option Nat) : ∀ line ∈ graph.forward entity bound, Listable graph line :=
  listable_forwardLoop wellFormed (below_lt wellFormed entity 1)
    (below_depth graph entity (Nat.le_refl 1))

/-- The lines of a cache can be shown once it serves a session, when they could be before. -/
theorem listable_refresh {session : Session} (reachable : session.Reachable)
    {cache : ForwardCache} (kept : ∀ line ∈ cache.lines, Listable session.graph line) :
    ∀ line ∈ (cache.refresh session).lines, Listable session.graph line := by
  rw [ForwardCache.refresh]
  split
  · exact kept
  · exact listable_forward (stable reachable).wellFormed session.currentEntity none

end Retrace.Checked
