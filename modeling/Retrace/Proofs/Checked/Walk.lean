import Retrace.Proofs.Soundness

/-!
# Walks with checked access

The definitions of a walk are total: a number that is no entity or no event is answered with a
default. Here every access is checked instead. The functions below take the same steps, but look up
every event, entity, mark and parent, take a part of a list only from a place within it, compare the
frame that is left by taking back a move with the one that the move entered, and give nothing as
soon as one of these checks fails.

They do what the walk does when the walk fits a well formed graph and its frames were entered
through events of that graph (`advance_eq`), and when the move to be taken back is the newest one
(`undo_eq`, `canUndo_advance`).
-/
namespace Retrace.Checked

/-! ## Access -/

/-- The part of a list from a place on; the place is not behind the end. -/
def dropFrom {α : Type} (list : List α) (place : Nat) : Option (List α) :=
  if place ≤ list.length then some (list.drop place) else none

/-- A difference of numbers that does not go below zero. -/
def sub (minuend subtrahend : Nat) : Option Nat :=
  if subtrahend ≤ minuend then some (minuend - subtrahend) else none

/-- The entity that an event leaves. -/
def source (graph : Graph) (event : EventId) : Option EntityId :=
  graph.events[event]?.map (·.source)

/-- The entity that an event enters. -/
def target (graph : Graph) (event : EventId) : Option EntityId :=
  graph.events[event]?.map (·.target)

/-- Whether an event is enabled. -/
def isEnabled (graph : Graph) (event : EventId) : Option Bool :=
  graph.events[event]?.map (·.enabled)

/-- The name of an entity. -/
def name (graph : Graph) (entity : EntityId) : Option String :=
  graph.entities[entity]?.map (·.name)

/-- The events that leave an entity. -/
def outgoing (graph : Graph) (entity : EntityId) : Option (List EventId) :=
  graph.entities[entity]?.map (·.outgoing.toList)

section

variable {graph : Graph} {event : EventId} {entity : EntityId}

/-- An event of the graph has a source. -/
theorem source_eq (inside : event < graph.numEvents) :
    source graph event = some (graph.source event) := by
  have present := Array.getElem?_eq_getElem inside
  simp [source, Graph.source, present]

/-- An event of the graph has a target. -/
theorem target_eq (inside : event < graph.numEvents) :
    target graph event = some (graph.target event) := by
  have present := Array.getElem?_eq_getElem inside
  simp [target, Graph.target, present]

/-- An event of the graph has a mark. -/
theorem isEnabled_eq (inside : event < graph.numEvents) :
    isEnabled graph event = some (graph.isEnabled event) := by
  have present := Array.getElem?_eq_getElem inside
  simp [isEnabled, Graph.isEnabled, present]

/-- An entity of the graph has a name. -/
theorem name_eq (inside : entity < graph.numEntities) :
    name graph entity = some (graph.name entity) := by
  have present := Array.getElem?_eq_getElem inside
  simp [name, Graph.name, present]

/-- An entity of the graph has a list of the events that leave it. -/
theorem outgoing_eq (inside : entity < graph.numEntities) :
    outgoing graph entity = some (graph.outgoing entity) := by
  have present := Array.getElem?_eq_getElem inside
  simp [outgoing, Graph.outgoing, present]

end

/-! ## Searching for the next event -/

/-- The first enabled event of a list. -/
def firstEnabled (graph : Graph) : List EventId → Option (Option EventId)
  | [] => some none
  | event :: rest => do
    if ← isEnabled graph event then some (some event) else firstEnabled graph rest

/-- The first enabled event that leaves an entity, or the first one after `resume` if that event
leaves the entity too. -/
def nextEnabled (graph : Graph) (entity : EntityId) (resume : Option EventId) :
    Option (Option EventId) := do
  let events ← outgoing graph entity
  let start := ((resume.bind events.idxOf?).map (· + 1)).getD 0
  let remaining ← dropFrom events start
  firstEnabled graph remaining

/-- The entity that a frame is about. -/
def frameEntity (graph : Graph) : Frame → Option EntityId
  | .root => some root
  | .via event => target graph event

/-- Whether a frame was entered through an event that did not discover its target. -/
def isLeaf (graph : Graph) (walk : Walk) : Frame → Option Bool
  | .root => some false
  | .via event => do
    let target ← target graph event
    let parent ← walk.parent[target]?
    some (parent != some event)

/-- The event that a walk enters next from a frame. -/
def nextEvent (graph : Graph) (walk : Walk) (frame : Frame) (resume : Option EventId) :
    Option (Option EventId) := do
  let leaf ← if resume.isNone then isLeaf graph walk frame else some false
  if leaf then some none
  else
    let entity ← frameEntity graph frame
    nextEnabled graph entity resume

/-- The frames that a move leaves and, unless it leaves all of them, the event it then enters and
the frames it stays in. -/
def backtrack (graph : Graph) (walk : Walk) :
    Option EventId → List Frame → Option (List Frame × Option (EventId × List Frame))
  | _, [] => some ([], none)
  | resume, frame :: below => do
    match ← nextEvent graph walk frame resume with
    | some event => some ([], some (event, frame :: below))
    | none =>
      let (popped, found) ← backtrack graph walk frame.event? below
      some (frame :: popped, found)

/-- The first enabled one of listed events of the graph is found. -/
theorem firstEnabled_eq {graph : Graph} {events : List EventId}
    (inside : ∀ event ∈ events, event < graph.numEvents) :
    firstEnabled graph events = some (events.find? graph.isEnabled) := by
  induction events with
  | nil => rfl
  | cons event rest ih =>
    obtain ⟨first, later⟩ := List.forall_mem_cons.mp inside
    rw [firstEnabled, isEnabled_eq first, Option.bind_eq_bind, Option.bind_some, ih later]
    cases marked : graph.isEnabled event <;> simp [marked]

/-- Going on after the place of an event is going on after the event. -/
theorem drop_idxOf? (events : List EventId) (event : EventId) :
    events.drop (((events.idxOf? event).map (· + 1)).getD 0) =
      if events.contains event then (events.dropWhile (· != event)).tail else events := by
  induction events with
  | nil => rfl
  | cons first rest ih =>
    by_cases same : first = event
    · simp [List.idxOf?_cons, same, List.dropWhile]
    · cases found : rest.idxOf? event with
      | none =>
        have missing := List.idxOf?_eq_none_iff.mp found
        simp [List.idxOf?_cons, same, found, missing, Ne.symm same]
      | some place =>
        have listed : event ∈ rest := by
          by_contra missing
          rw [List.idxOf?_eq_none_iff.mpr missing] at found
          contradiction
        rw [found] at ih
        simpa [List.idxOf?_cons, same, found, listed] using ih

/-- There is such a place. -/
theorem place_le_length (events : List EventId) (resume : Option EventId) :
    ((resume.bind events.idxOf?).map (· + 1)).getD 0 ≤ events.length := by
  cases found : resume.bind events.idxOf? with
  | none => exact Nat.zero_le _
  | some place =>
    obtain ⟨event, _, listed⟩ := Option.bind_eq_some_iff.mp found
    exact (List.idxOf?_eq_some_iff.mp listed).1

/-- The next enabled event that leaves an entity of the graph is found. -/
theorem nextEnabled_eq {graph : Graph} (wellFormed : graph.WellFormed) {entity : EntityId}
    (inside : entity < graph.numEntities) (resume : Option EventId) :
    nextEnabled graph entity resume = some (Walk.nextEnabled? graph entity resume) := by
  have all : ∀ event ∈ graph.outgoing entity, event < graph.numEvents :=
    fun event listed => (wellFormed.mem_outgoing.mp listed).1
  have start := place_le_length (graph.outgoing entity) resume
  have found (place : Nat) : firstEnabled graph ((graph.outgoing entity).drop place) =
      some (((graph.outgoing entity).drop place).find? graph.isEnabled) :=
    firstEnabled_eq fun event later => all event (List.mem_of_mem_drop later)
  simp only [nextEnabled, outgoing_eq inside, dropFrom, start, if_true, Option.bind_eq_bind,
    Option.bind_some, found]
  cases resume with
  | none => rfl
  | some event => rw [Option.bind_some, drop_idxOf?, Walk.nextEnabled?]

/-- The entity of a frame is found when its event is an event of the graph. -/
theorem frameEntity_eq {graph : Graph} {frame : Frame}
    (inside : ∀ event, frame = .via event → event < graph.numEvents) :
    frameEntity graph frame = some (frame.entity graph) := by
  cases frame with
  | root => rfl
  | via event => exact target_eq (inside event rfl)

section

variable {graph : Graph} {walk : Walk} (wellFormed : graph.WellFormed) (fits : walk.Fits graph)
include wellFormed fits

/-- Whether such a frame is a leaf is told from the parents. -/
theorem isLeaf_eq {frame : Frame}
    (inside : ∀ event, frame = .via event → event < graph.numEvents) :
    isLeaf graph walk frame = some (walk.isLeaf graph frame) := by
  cases frame with
  | root => rfl
  | via event =>
    have bound := inside event rfl
    have noted : graph.target event < walk.parent.size :=
      fits.parent_size ▸ wellFormed.target_lt event bound
    simp [isLeaf, target_eq bound, Walk.isLeaf, Walk.parentOf, Array.getElem?_eq_getElem noted]

/-- The next event of such a frame is found. -/
theorem nextEvent_eq (rooted : 0 < graph.numEntities) {frame : Frame}
    (inside : ∀ event, frame = .via event → event < graph.numEvents) (resume : Option EventId) :
    nextEvent graph walk frame resume = some (walk.nextEvent? graph frame resume) := by
  have bound : frame.entity graph < graph.numEntities := by
    cases frame with
    | root => exact rooted
    | via event => exact wellFormed.target_lt event (inside event rfl)
  have search := nextEnabled_eq wellFormed bound resume
  cases resume with
  | some left => simp [nextEvent, Walk.nextEvent?, frameEntity_eq inside, search]
  | none =>
    cases leaf : walk.isLeaf graph frame <;>
      simp [nextEvent, Walk.nextEvent?, isLeaf_eq wellFormed fits inside, frameEntity_eq inside,
        leaf, search]

/-- A search down a stack of frames with events of the graph finds all that it asks for. -/
theorem backtrack_eq (rooted : 0 < graph.numEntities) {stack : List Frame}
    (inside : ∀ event, .via event ∈ stack → event < graph.numEvents) (resume : Option EventId) :
    backtrack graph walk resume stack = some (walk.backtrack graph resume stack) := by
  induction stack generalizing resume with
  | nil => rfl
  | cons frame below ih =>
    have top : ∀ event, frame = .via event → event < graph.numEvents :=
      fun event same => inside event (same ▸ List.mem_cons_self)
    have rest := ih fun event lower => inside event (List.mem_cons_of_mem _ lower)
    rw [backtrack, nextEvent_eq wellFormed fits rooted top, Walk.backtrack]
    cases walk.nextEvent? graph frame resume with
    | some event => rfl
    | none => simp [rest]

end

/-! ## Moves -/

/-- Enter an event. -/
def enter (walk : Walk) (event : EventId) (target : EntityId) : Option (Walk × Descent) := do
  if ← walk.discovered[target]? then
    some ({ walk with stack := .via event :: walk.stack }, ⟨event, none⟩)
  else
    let previous ← walk.parent[target]?
    some ({ discovered := walk.discovered.setIfInBounds target true
            parent := walk.parent.setIfInBounds target (some event)
            stack := .via event :: walk.stack },
      ⟨event, some ⟨target, previous⟩⟩)

/-- Go on by one move. -/
def advance (graph : Graph) (walk : Walk) : Option (Walk × Move) := do
  match ← backtrack graph walk none walk.stack with
  | (popped, none) => some ({ walk with stack := [] }, ⟨popped, none⟩)
  | (popped, some (event, stack)) =>
    let target ← target graph event
    let (walk, descent) ← enter { walk with stack } event target
    some (walk, ⟨popped, some descent⟩)

/-- Take back a descent. The frame that is left is the one that the descent entered. -/
def ascend (walk : Walk) (descent : Descent) : Option Walk :=
  if walk.stack.head? = some (.via descent.event) then
    match descent.discovery with
    | none => some (walk.ascend descent)
    | some discovery => do
      let _ ← walk.discovered[discovery.entity]?
      let _ ← walk.parent[discovery.entity]?
      some (walk.ascend descent)
  else none

/-- Take back a move. -/
def undo (walk : Walk) (move : Move) : Option Walk := do
  let walk ← match move.descent with
    | none => some walk
    | some descent => ascend walk descent
  some { walk with stack := move.popped ++ walk.stack }

/-- An event is entered with every check passed when its target has a mark and a parent to write. -/
theorem enter_eq (walk : Walk) {target : EntityId} (marked : target < walk.discovered.size)
    (noted : target < walk.parent.size) (event : EventId) :
    enter walk event target = some (walk.enter event target) := by
  have mark := Array.getElem?_eq_getElem marked
  have note := Array.getElem?_eq_getElem noted
  cases known : walk.discovered[target] <;>
    simp [enter, Walk.enter, Walk.isDiscovered, Walk.parentOf, mark, note, known]

/-- All checks of a move succeed: the search finds an enabled event only, and that is an event of
the graph. -/
theorem advance_eq {graph : Graph} {walk : Walk} (wellFormed : graph.WellFormed)
    (rooted : 0 < graph.numEntities) (fits : walk.Fits graph)
    (inside : ∀ event, .via event ∈ walk.stack → event < graph.numEvents) :
    advance graph walk = some (walk.advance graph) := by
  rw [advance, backtrack_eq wellFormed fits rooted inside, Walk.advance]
  rcases searched : walk.backtrack graph none walk.stack with ⟨popped, none | ⟨event, stay⟩⟩
  · rfl
  · have bound := Graph.lt_of_isEnabled (Walk.isEnabled_of_backtrack searched)
    have entered := wellFormed.target_lt event bound
    have checked := enter_eq { walk with stack := stay }
      (fits.discovered_size ▸ entered) (fits.parent_size ▸ entered) event
    simp [target_eq bound, checked]

/-- A move can be taken back: the frame that its descent entered is the top frame, and what it
discovered is an entity. -/
def CanUndo (graph : Graph) (walk : Walk) (move : Move) : Prop :=
  ∀ descent, move.descent = some descent → walk.stack.head? = some (.via descent.event) ∧
    ∀ discovery, descent.discovery = some discovery → discovery.entity < graph.numEntities

/-- All checks of taking back a move that the walk can take back succeed. -/
theorem undo_eq {graph : Graph} {walk : Walk} (fits : walk.Fits graph) {move : Move}
    (can : CanUndo graph walk move) : undo walk move = some (walk.undo move) := by
  cases left : move.descent with
  | none => simp [undo, Walk.undo, left]
  | some descent =>
    obtain ⟨top, known⟩ := can descent left
    have checked : ascend walk descent = some (walk.ascend descent) := by
      rw [ascend, if_pos top]
      cases found : descent.discovery with
      | none => rfl
      | some discovery =>
        have bound := known discovery found
        have mark := Array.getElem?_eq_getElem (fits.discovered_size.symm ▸ bound)
        have note := Array.getElem?_eq_getElem (fits.parent_size.symm ▸ bound)
        simp [mark, note]
    simp [undo, Walk.undo, left, checked]

/-- A descent enters the event that it names, and discovers no entity but its target. -/
theorem descent_enter (walk : Walk) (event : EventId) (target : EntityId) :
    (walk.enter event target).2.event = event ∧
      ∀ discovery, (walk.enter event target).2.discovery = some discovery →
        discovery = ⟨target, walk.parentOf target⟩ := by
  rw [Walk.enter]
  split
  · exact ⟨rfl, fun discovery found => by contradiction⟩
  · exact ⟨rfl, fun discovery found => (Option.some.inj found).symm⟩

/-- The move just made can be taken back. -/
theorem canUndo_advance {graph : Graph} (wellFormed : graph.WellFormed) (walk : Walk) :
    CanUndo graph (walk.advance graph).1 (walk.advance graph).2 := by
  rw [Walk.advance]
  rcases searched : walk.backtrack graph none walk.stack with ⟨popped, none | ⟨event, stay⟩⟩
  · intro descent left
    contradiction
  · have bound := Graph.lt_of_isEnabled (Walk.isEnabled_of_backtrack searched)
    obtain ⟨named, discovers⟩ := descent_enter { walk with stack := stay } event
      (graph.target event)
    intro descent left
    obtain rfl := Option.some.inj left
    refine ⟨?_, fun discovery found => ?_⟩
    · rw [named, Walk.stack_enter, List.head?_cons]
    · rw [discovers discovery found]
      exact wellFormed.target_lt event bound

end Retrace.Checked
