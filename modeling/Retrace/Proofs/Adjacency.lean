import Retrace.Walk

/-!
# Adjacency of instantiation graphs

An entity keeps its events in lists of its own, apart from the ends that the events name.
`Graph.WellFormed` says that the two agree: the lists of an entity hold exactly the events with
that end, in recording order, and both ends of every event exist. Adding to a graph and disabling
events keep it. What they never change is `Graph.Extends`: events keep their numbers and ends.

In a well formed graph the search for the next event of a frame is the head of an increasing list,
`nextEnabled?_none` and `nextEnabled?_some`.
-/
namespace Retrace.Graph

/-! ## Increasing lists -/

/-- In an increasing list, what comes after a member is what is greater. -/
theorem tail_dropWhile_ne {numbers : List Nat} {number : Nat}
    (increasing : numbers.Pairwise (· < ·)) (listed : number ∈ numbers) :
    (numbers.dropWhile (· != number)).tail = numbers.filter (number < ·) := by
  induction numbers with
  | nil => simp at listed
  | cons first rest ih =>
    obtain ⟨least, increasing⟩ := List.pairwise_cons.mp increasing
    by_cases same : first = number
    · subst same
      have above : rest.filter (first < ·) = rest :=
        List.filter_eq_self.mpr fun other inside => by simpa using least other inside
      simp [List.dropWhile, above]
    · have later : number ∈ rest := (List.mem_cons.mp listed).resolve_left (Ne.symm same)
      have below : ¬ number < first := Nat.not_lt.mpr (Nat.le_of_lt (least number later))
      rw [List.dropWhile_cons_of_pos (by simpa using same), ih increasing later,
        List.filter_cons_of_neg (by simpa using below)]

/-- In an increasing list, what is greater than the head is the tail. -/
theorem filter_head_lt {first : Nat} {rest : List Nat}
    (increasing : (first :: rest).Pairwise (· < ·)) :
    (first :: rest).filter (first < ·) = rest := by
  have least := (List.pairwise_cons.mp increasing).1
  rw [List.filter_cons_of_neg (by simp)]
  exact List.filter_eq_self.mpr fun other inside => by simpa using least other inside

/-- What is greater than the least number above a bound is what else is above the bound. -/
theorem filter_next_lt {numbers : List Nat} {bound next : Nat} {rest : List Nat}
    (increasing : numbers.Pairwise (· < ·)) (found : numbers.filter (bound < ·) = next :: rest) :
    numbers.filter (next < ·) = rest := by
  have above : bound < next := by
    have inside : next ∈ numbers.filter (bound < ·) := by simp [found]
    simpa using (List.mem_filter.mp inside).2
  have narrowed : numbers.filter (next < ·) = (numbers.filter (bound < ·)).filter (next < ·) := by
    rw [List.filter_filter]
    refine List.filter_congr fun number _ => ?_
    by_cases greater : next < number
    · simp [greater, Nat.lt_trans above greater]
    · simp [greater]
  rw [narrowed, found]
  exact filter_head_lt (found ▸ increasing.filter _)

/-! ## Agreement of events and adjacency lists -/

/-- The lists of every entity hold exactly the events with that end, in recording order, and the
ends of every event are entities. -/
structure WellFormed (graph : Graph) : Prop where
  /-- Every event leaves an entity. -/
  source_lt : ∀ event < graph.numEvents, graph.source event < graph.numEntities
  /-- Every event enters an entity. -/
  target_lt : ∀ event < graph.numEvents, graph.target event < graph.numEntities
  /-- The events listed as leaving an entity are those with that source. -/
  outgoing_eq : ∀ entity, graph.outgoing entity =
    (List.range graph.numEvents).filter (graph.source · == entity)
  /-- The events listed as entering an entity are those with that target. -/
  incoming_eq : ∀ entity, graph.incoming entity =
    (List.range graph.numEvents).filter (graph.target · == entity)

/-- A larger graph has the entities and the events of a smaller one, with their ends. -/
structure Extends (graph larger : Graph) : Prop where
  /-- No entity is lost. -/
  numEntities_le : graph.numEntities ≤ larger.numEntities
  /-- No event is lost. -/
  numEvents_le : graph.numEvents ≤ larger.numEvents
  /-- Every event keeps its source. -/
  source_eq : ∀ event < graph.numEvents, larger.source event = graph.source event
  /-- Every event keeps its target. -/
  target_eq : ∀ event < graph.numEvents, larger.target event = graph.target event

/-- Every graph extends itself. -/
theorem Extends.refl (graph : Graph) : graph.Extends graph :=
  ⟨Nat.le_refl _, Nat.le_refl _, fun _ _ => rfl, fun _ _ => rfl⟩

/-- An extension of an extension is an extension. -/
theorem Extends.trans {first second third : Graph} (lower : first.Extends second)
    (upper : second.Extends third) : first.Extends third where
  numEntities_le := Nat.le_trans lower.numEntities_le upper.numEntities_le
  numEvents_le := Nat.le_trans lower.numEvents_le upper.numEvents_le
  source_eq event inside := by
    rw [upper.source_eq event (Nat.lt_of_lt_of_le inside lower.numEvents_le),
      lower.source_eq event inside]
  target_eq event inside := by
    rw [upper.target_eq event (Nat.lt_of_lt_of_le inside lower.numEvents_le),
      lower.target_eq event inside]

/-! ## Adding an entity -/

/-- A new entity leaves the source of every event as it was. -/
@[simp] theorem source_addEntity (graph : Graph) (name : String) (event : EventId) :
    (graph.addEntity name).source event = graph.source event := rfl

/-- A new entity leaves the target of every event as it was. -/
@[simp] theorem target_addEntity (graph : Graph) (name : String) (event : EventId) :
    (graph.addEntity name).target event = graph.target event := rfl

/-- A number that is no entity has no events leaving it. -/
theorem outgoing_of_le (graph : Graph) {entity : EntityId} (outside : graph.numEntities ≤ entity) :
    graph.outgoing entity = [] := by
  have missing : graph.entities[entity]? = none := Array.getElem?_eq_none outside
  simp [outgoing, missing]

/-- A number that is no entity has no events entering it. -/
theorem incoming_of_le (graph : Graph) {entity : EntityId} (outside : graph.numEntities ≤ entity) :
    graph.incoming entity = [] := by
  have missing : graph.entities[entity]? = none := Array.getElem?_eq_none outside
  simp [incoming, missing]

/-- A new entity has no events, and every other one leaves as many as before. -/
@[simp] theorem outgoing_addEntity (graph : Graph) (name : String) (entity : EntityId) :
    (graph.addEntity name).outgoing entity = graph.outgoing entity := by
  by_cases new : entity = graph.entities.size
  · rw [outgoing_of_le graph (Nat.le_of_eq new.symm)]
    simp [outgoing, addEntity, new]
  · simp [outgoing, addEntity, Array.getElem?_push, new]

/-- A new entity is entered by no event, and every other one by as many as before. -/
@[simp] theorem incoming_addEntity (graph : Graph) (name : String) (entity : EntityId) :
    (graph.addEntity name).incoming entity = graph.incoming entity := by
  by_cases new : entity = graph.entities.size
  · rw [incoming_of_le graph (Nat.le_of_eq new.symm)]
    simp [incoming, addEntity, new]
  · simp [incoming, addEntity, Array.getElem?_push, new]

/-- A graph with one more entity extends the graph. -/
theorem extends_addEntity (graph : Graph) (name : String) : graph.Extends (graph.addEntity name) :=
  ⟨by simp, by simp, fun _ _ => rfl, fun _ _ => rfl⟩

/-- Adding an entity keeps a graph well formed. -/
theorem WellFormed.addEntity {graph : Graph} (wellFormed : graph.WellFormed) (name : String) :
    (graph.addEntity name).WellFormed where
  source_lt event inside := by
    rw [source_addEntity, numEntities_addEntity]
    exact Nat.lt_succ_of_lt (wellFormed.source_lt event inside)
  target_lt event inside := by
    rw [target_addEntity, numEntities_addEntity]
    exact Nat.lt_succ_of_lt (wellFormed.target_lt event inside)
  outgoing_eq entity := by simp [wellFormed.outgoing_eq]
  incoming_eq entity := by simp [wellFormed.incoming_eq]

/-- The graph without entities is well formed. -/
theorem wellFormed_empty : empty.WellFormed where
  source_lt event inside := absurd inside (Nat.not_lt_zero event)
  target_lt event inside := absurd inside (Nat.not_lt_zero event)
  outgoing_eq entity := by simp [outgoing, empty, numEvents]
  incoming_eq entity := by simp [incoming, empty, numEvents]

/-! ## Adding an event -/

/-- The new event leaves the source that was asked for; every other one keeps its source. -/
@[simp] theorem source_addEvent (graph : Graph) (source target : EntityId) (kind : Kind)
    (location : Option Location) (event : EventId) :
    (graph.addEvent source target kind location).source event =
      if event = graph.numEvents then source else graph.source event := by
  by_cases new : event = graph.events.size <;>
    simp [Graph.source, addEvent, numEvents, Array.getElem?_push, new]

/-- The new event enters the target that was asked for; every other one keeps its target. -/
@[simp] theorem target_addEvent (graph : Graph) (source target : EntityId) (kind : Kind)
    (location : Option Location) (event : EventId) :
    (graph.addEvent source target kind location).target event =
      if event = graph.numEvents then target else graph.target event := by
  by_cases new : event = graph.events.size <;>
    simp [Graph.target, addEvent, numEvents, Array.getElem?_push, new]

/-- The new event comes last among those that leave its source. -/
theorem outgoing_addEvent {graph : Graph} {source : EntityId} (inside : source < graph.numEntities)
    (target : EntityId) (kind : Kind) (location : Option Location) (entity : EntityId) :
    (graph.addEvent source target kind location).outgoing entity =
      graph.outgoing entity ++ if source = entity then [graph.numEvents] else [] := by
  have present : graph.entities[source]? = some graph.entities[source] :=
    Array.getElem?_eq_getElem inside
  simp only [outgoing, addEvent, Array.getElem?_modify]
  by_cases atSource : source = entity
  · subst atSource
    by_cases atTarget : target = source <;> simp [atTarget, present]
  · by_cases atTarget : target = entity <;> simp [atSource, atTarget, Function.comp_def]

/-- The new event comes last among those that enter its target. -/
theorem incoming_addEvent {graph : Graph} {target : EntityId} (inside : target < graph.numEntities)
    (source : EntityId) (kind : Kind) (location : Option Location) (entity : EntityId) :
    (graph.addEvent source target kind location).incoming entity =
      graph.incoming entity ++ if target = entity then [graph.numEvents] else [] := by
  have present : graph.entities[target]? = some graph.entities[target] :=
    Array.getElem?_eq_getElem inside
  simp only [incoming, addEvent, Array.getElem?_modify]
  by_cases atTarget : target = entity
  · subst atTarget
    by_cases atSource : source = target <;> simp [atSource, present]
  · by_cases atSource : source = entity <;> simp [atSource, atTarget, Function.comp_def]

/-- A graph with one more event extends the graph. -/
theorem extends_addEvent (graph : Graph) (source target : EntityId) (kind : Kind)
    (location : Option Location) : graph.Extends (graph.addEvent source target kind location) where
  numEntities_le := by simp
  numEvents_le := by simp
  source_eq event inside := by simp [Nat.ne_of_lt inside]
  target_eq event inside := by simp [Nat.ne_of_lt inside]

/-- Adding an event between entities keeps a graph well formed. -/
theorem WellFormed.addEvent {graph : Graph} (wellFormed : graph.WellFormed)
    {source target : EntityId} (leaves : source < graph.numEntities)
    (enters : target < graph.numEntities) (kind : Kind) (location : Option Location) :
    (graph.addEvent source target kind location).WellFormed := by
  have kept (event : EventId) (inside : event ∈ List.range graph.numEvents) :
      event ≠ graph.numEvents := Nat.ne_of_lt (List.mem_range.mp inside)
  refine ⟨fun event inside => ?_, fun event inside => ?_, fun entity => ?_, fun entity => ?_⟩
  · simp only [numEvents_addEvent] at inside
    simp only [source_addEvent, numEntities_addEvent]
    split
    · exact leaves
    · exact wellFormed.source_lt event (Nat.lt_of_le_of_ne (Nat.le_of_lt_succ inside) ‹_›)
  · simp only [numEvents_addEvent] at inside
    simp only [target_addEvent, numEntities_addEvent]
    split
    · exact enters
    · exact wellFormed.target_lt event (Nat.lt_of_le_of_ne (Nat.le_of_lt_succ inside) ‹_›)
  · rw [outgoing_addEvent leaves, wellFormed.outgoing_eq, numEvents_addEvent, List.range_succ,
      List.filter_append]
    congr 1
    · exact List.filter_congr fun event inside => by simp [kept event inside]
    · by_cases same : source = entity <;> simp [same]
  · rw [incoming_addEvent enters, wellFormed.incoming_eq, numEvents_addEvent, List.range_succ,
      List.filter_append]
    congr 1
    · exact List.filter_congr fun event inside => by simp [kept event inside]
    · by_cases same : target = entity <;> simp [same]

/-! ## Disabling events -/

/-- Writing a mark leaves the source of every event as it was. -/
@[simp] theorem source_setEnabled (graph : Graph) (marked : EventId) (enabled : Bool)
    (event : EventId) : (graph.setEnabled marked enabled).source event = graph.source event := by
  by_cases same : marked = event <;>
    simp [source, setEnabled, Array.getElem?_modify, same, Function.comp_def]

/-- Writing a mark leaves the target of every event as it was. -/
@[simp] theorem target_setEnabled (graph : Graph) (marked : EventId) (enabled : Bool)
    (event : EventId) : (graph.setEnabled marked enabled).target event = graph.target event := by
  by_cases same : marked = event <;>
    simp [target, setEnabled, Array.getElem?_modify, same, Function.comp_def]

/-- A graph agrees with another in everything but the marks of its events. -/
structure SameShape (graph other : Graph) : Prop where
  /-- The entities are the same, with their lists. -/
  entities_eq : other.entities = graph.entities
  /-- There are as many events. -/
  numEvents_eq : other.numEvents = graph.numEvents
  /-- Every event has the same source. -/
  source_eq : ∀ event, other.source event = graph.source event
  /-- Every event has the same target. -/
  target_eq : ∀ event, other.target event = graph.target event

/-- Disabling events changes marks only. -/
theorem sameShape_disable (graph : Graph) (events : List EventId) :
    graph.SameShape (graph.disable events) := by
  induction events generalizing graph with
  | nil => exact ⟨rfl, rfl, fun _ => rfl, fun _ => rfl⟩
  | cons event events ih =>
    obtain ⟨entities, numEvents, source, target⟩ := ih (graph.setEnabled event false)
    refine ⟨entities, numEvents.trans (by simp), fun other => ?_, fun other => ?_⟩
    · exact (source other).trans (by simp)
    · exact (target other).trans (by simp)

/-- Graphs of one shape have the same number of entities. -/
theorem SameShape.numEntities_eq {graph other : Graph} (shape : graph.SameShape other) :
    other.numEntities = graph.numEntities := by
  simp [numEntities, shape.entities_eq]

/-- A graph extends every graph of its shape. -/
theorem SameShape.extends {graph other : Graph} (shape : graph.SameShape other) :
    graph.Extends other where
  numEntities_le := Nat.le_of_eq shape.numEntities_eq.symm
  numEvents_le := Nat.le_of_eq shape.numEvents_eq.symm
  source_eq event _ := shape.source_eq event
  target_eq event _ := shape.target_eq event

/-- A graph of the shape of a well formed one is well formed. -/
theorem SameShape.wellFormed {graph other : Graph} (shape : graph.SameShape other)
    (wellFormed : graph.WellFormed) : other.WellFormed where
  source_lt event inside := by
    rw [shape.source_eq, shape.numEntities_eq]
    exact wellFormed.source_lt event (shape.numEvents_eq ▸ inside)
  target_lt event inside := by
    rw [shape.target_eq, shape.numEntities_eq]
    exact wellFormed.target_lt event (shape.numEvents_eq ▸ inside)
  outgoing_eq entity := by
    have listed : other.outgoing entity = graph.outgoing entity := by
      simp [outgoing, shape.entities_eq]
    simp [listed, wellFormed.outgoing_eq, shape.numEvents_eq, shape.source_eq]
  incoming_eq entity := by
    have listed : other.incoming entity = graph.incoming entity := by
      simp [incoming, shape.entities_eq]
    simp [listed, wellFormed.incoming_eq, shape.numEvents_eq, shape.target_eq]

/-- Only events are enabled. -/
theorem lt_of_isEnabled {graph : Graph} {event : EventId} (enabled : graph.isEnabled event = true) :
    event < graph.numEvents := by
  simp only [isEnabled, Option.any_eq_true] at enabled
  obtain ⟨found, present, _⟩ := enabled
  exact (Array.getElem?_eq_some_iff.mp present).1

/-! ## Marks -/

/-- Writing a mark changes nothing but the mark of that event. -/
theorem getElem?_setEnabled (graph : Graph) (marked event : EventId) (enabled : Bool) :
    (graph.setEnabled marked enabled).events[event]? =
      graph.events[event]?.map fun found =>
        if marked = event then { found with enabled } else found := by
  rw [setEnabled, Array.getElem?_modify]
  by_cases same : marked = event
  · simp [same]
  · simp [same]

/-- Disabling events changes nothing but their marks. -/
theorem getElem?_disable (graph : Graph) (events : List EventId) (event : EventId) :
    (graph.disable events).events[event]? = graph.events[event]?.map fun found =>
      { found with enabled := found.enabled && !events.contains event } := by
  induction events generalizing graph with
  | nil => simp [disable]
  | cons marked events ih =>
    rw [disable, List.foldl_cons, ← disable, ih, getElem?_setEnabled, Option.map_map]
    congr 1
    funext found
    by_cases same : marked = event
    · simp [same]
    · simp [same, Ne.symm same]

/-- Of the enabled events, those are disabled by a condition of which it holds. -/
theorem contains_matching {graph : Graph} (condition : Graph → EventId → Bool) {event : EventId}
    (enabled : graph.isEnabled event = true) :
    (graph.matching condition).contains event = condition graph event := by
  rw [Bool.eq_iff_iff, List.contains_iff_mem]
  simp [matching, lt_of_isEnabled enabled, enabled]

/-- Disabling by a condition changes nothing but the marks of the events of which it holds. -/
theorem getElem?_disableIf (graph : Graph) (condition : Graph → EventId → Bool)
    (event : EventId) : (graph.disableIf condition).1.events[event]? =
      graph.events[event]?.map fun found =>
        { found with enabled := found.enabled && !condition graph event } := by
  rw [disableIf, getElem?_disable]
  refine Option.map_congr fun found present => ?_
  cases enabled : found.enabled with
  | false => rfl
  | true =>
    have marked : graph.isEnabled event = true := by simp [isEnabled, present, enabled]
    rw [contains_matching condition marked]

/-- Disabling by a condition disables exactly the events of which it holds. -/
theorem isEnabled_disableIf (graph : Graph) (condition : Graph → EventId → Bool)
    (event : EventId) : (graph.disableIf condition).1.isEnabled event =
      (graph.isEnabled event && !condition graph event) := by
  rw [isEnabled, isEnabled, getElem?_disableIf]
  cases graph.events[event]? <;> rfl

/-! ## Events that leave an entity -/

section

variable {graph : Graph} (wellFormed : graph.WellFormed)
include wellFormed

/-- The events listed for an entity are those that leave it. -/
theorem WellFormed.mem_outgoing {entity : EntityId} {event : EventId} :
    event ∈ graph.outgoing entity ↔ event < graph.numEvents ∧ graph.source event = entity := by
  simp [wellFormed.outgoing_eq]

/-- The events that leave an entity are listed in increasing order. -/
theorem WellFormed.outgoing_increasing (entity : EntityId) :
    (graph.outgoing entity).Pairwise (· < ·) := by
  rw [wellFormed.outgoing_eq]
  exact List.pairwise_lt_range.filter _

/-- The enabled events listed for an entity are the enabled ones that leave it. -/
theorem WellFormed.mem_enabledOutgoing {entity : EntityId} {event : EventId} :
    event ∈ graph.enabledOutgoing entity ↔
      graph.isEnabled event = true ∧ graph.source event = entity := by
  simp only [enabledOutgoing, List.mem_filter, wellFormed.mem_outgoing]
  exact ⟨fun ⟨⟨_, leaves⟩, enabled⟩ => ⟨enabled, leaves⟩,
    fun ⟨enabled, leaves⟩ => ⟨⟨lt_of_isEnabled enabled, leaves⟩, enabled⟩⟩

/-- The enabled events that leave an entity are listed in increasing order. -/
theorem WellFormed.enabledOutgoing_increasing (entity : EntityId) :
    (graph.enabledOutgoing entity).Pairwise (· < ·) :=
  (wellFormed.outgoing_increasing entity).filter _

/-- No enabled event is listed twice for an entity. -/
theorem WellFormed.nodup_enabledOutgoing (entity : EntityId) :
    (graph.enabledOutgoing entity).Nodup :=
  (wellFormed.enabledOutgoing_increasing entity).imp Nat.ne_of_lt

omit wellFormed in
/-- A frame that was just entered goes on with the first enabled event. -/
theorem nextEnabled?_none (entity : EntityId) :
    Walk.nextEnabled? graph entity none = (graph.enabledOutgoing entity).head? := by
  simp [Walk.nextEnabled?, enabledOutgoing, List.head?_filter]

/-- A frame that was come back to goes on with the first enabled event after the one that was
left, be that one enabled or not. -/
theorem WellFormed.nextEnabled?_some {left : EventId} (inside : left < graph.numEvents) :
    Walk.nextEnabled? graph (graph.source left) (some left) =
      ((graph.enabledOutgoing (graph.source left)).filter (left < ·)).head? := by
  have listed : left ∈ graph.outgoing (graph.source left) :=
    wellFormed.mem_outgoing.mpr ⟨inside, rfl⟩
  have increasing := wellFormed.outgoing_increasing (graph.source left)
  simp only [Walk.nextEnabled?, List.contains_iff_mem, listed, if_true,
    tail_dropWhile_ne increasing listed, enabledOutgoing]
  rw [← List.head?_filter, List.filter_filter, List.filter_filter]
  simp only [Bool.and_comm]

end

end Retrace.Graph
