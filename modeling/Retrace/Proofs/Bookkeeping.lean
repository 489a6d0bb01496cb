import Mathlib.Data.List.Nodup
import Mathlib.Tactic.SplitIfs
import Retrace.Graph
import Retrace.Proofs.Adjacency

/-!
# Bookkeeping of graphs

A graph keeps each event three times: in its list of events, among those that leave its source and
among those that enter its target. Every operation keeps the three in step, the refused ones by
changing nothing (`WellFormed.apply`), and no operation takes an event away or gives it other ends,
another kind or another point of instantiation (`keeps_apply`). Whatever operations made a graph,
its lists are therefore those of its events, in recording order, and what was once given out stays:
`lists_eq_run`.
-/
namespace Retrace.Graph

/-! ## What stays -/

/-- A later graph has the entities and the events of an earlier one; the events have their ends,
kinds and points of instantiation. -/
structure Keeps (graph later : Graph) : Prop where
  /-- No entity is lost. -/
  numEntities_le : graph.numEntities ≤ later.numEntities
  /-- An event keeps everything but its mark. -/
  event_eq : ∀ (event : EventId) (found : Event), graph.events[event]? = some found →
    ∃ enabled, later.events[event]? = some { found with enabled }

/-- A graph keeps what it has. -/
theorem Keeps.refl (graph : Graph) : graph.Keeps graph :=
  ⟨Nat.le_refl _, fun _ found present => ⟨found.enabled, present⟩⟩

/-- What is kept twice over is kept. -/
theorem Keeps.trans {first second third : Graph} (lower : first.Keeps second)
    (upper : second.Keeps third) : first.Keeps third where
  numEntities_le := Nat.le_trans lower.numEntities_le upper.numEntities_le
  event_eq event found present := by
    obtain ⟨_, between⟩ := lower.event_eq event found present
    obtain ⟨enabled, last⟩ := upper.event_eq event _ between
    exact ⟨enabled, last⟩

/-- A graph with other marks keeps what it had. -/
theorem keeps_of_marks {graph later : Graph} (entities : later.numEntities = graph.numEntities)
    (mark : EventId → Event → Bool) (events : ∀ event : EventId, later.events[event]? =
      graph.events[event]?.map fun found => { found with enabled := mark event found }) :
    graph.Keeps later where
  numEntities_le := Nat.le_of_eq entities.symm
  event_eq event found present := ⟨mark event found, by rw [events, present]; rfl⟩

/-- A new event comes after those that were there. -/
theorem keeps_addEvent (graph : Graph) (source target : EntityId) (kind : Kind)
    (location : Option Location) : graph.Keeps (graph.addEvent source target kind location) where
  numEntities_le := by simp
  event_eq event found present := by
    have older : event ≠ graph.events.size :=
      Nat.ne_of_lt (Array.getElem?_eq_some_iff.mp present).1
    refine ⟨found.enabled, ?_⟩
    rw [addEvent, Array.getElem?_push, if_neg older, present]

/-- Every operation keeps what was there. -/
theorem keeps_apply (graph : Graph) (operation : Operation) :
    graph.Keeps (graph.apply operation).1 := by
  cases operation with
  | addEntity name => exact ⟨by simp [apply], fun _ found present => ⟨found.enabled, present⟩⟩
  | addEvent source target kind location =>
    simp only [apply, addEvent?]
    split_ifs
    · exact .refl graph
    · exact graph.keeps_addEvent source target kind location
  | rename entity name =>
    simp only [apply, rename?]
    split_ifs
    · exact .refl graph
    · exact ⟨by simp [numEntities], fun _ found present => ⟨found.enabled, present⟩⟩
  | setEnabled event enabled =>
    simp only [apply, setEnabled?]
    split_ifs
    · exact .refl graph
    · refine keeps_of_marks rfl
        (fun other found => if event = other then enabled else found.enabled) fun other => ?_
      rw [getElem?_setEnabled]
      by_cases same : event = other <;> simp [same]
  | disableIf condition =>
    have shape := graph.sameShape_disable (graph.matching condition)
    exact keeps_of_marks shape.numEntities_eq _ (graph.getElem?_disableIf condition)

/-- So do operations one after another. -/
theorem keeps_run (graph : Graph) (operations : List Operation) :
    graph.Keeps (graph.run operations) := by
  induction operations generalizing graph with
  | nil => exact .refl graph
  | cons operation rest ih => exact (graph.keeps_apply operation).trans (ih _)

/-! ## Lists of events -/

/-- A mark is no part of the lists. -/
theorem sameShape_setEnabled (graph : Graph) (event : EventId) (enabled : Bool) :
    graph.SameShape (graph.setEnabled event enabled) :=
  ⟨rfl, by simp, by simp, by simp⟩

/-- A name is no part of the lists. -/
theorem WellFormed.rename {graph renamed : Graph} (wellFormed : graph.WellFormed)
    {entity : EntityId} {name : String} (done : graph.rename? entity name = some renamed) :
    renamed.WellFormed := by
  unfold rename? at done
  split at done
  · contradiction
  · obtain rfl := Option.some.inj done
    refine ⟨fun event inside => ?_, fun event inside => ?_, fun other => ?_, fun other => ?_⟩
    · rw [numEntities, Array.size_modify]
      exact wellFormed.source_lt event inside
    · rw [numEntities, Array.size_modify]
      exact wellFormed.target_lt event inside
    · refine Eq.trans ?_ (wellFormed.outgoing_eq other)
      by_cases same : entity = other <;>
        simp [outgoing, Array.getElem?_modify, same, Function.comp_def]
    · refine Eq.trans ?_ (wellFormed.incoming_eq other)
      by_cases same : entity = other <;>
        simp [incoming, Array.getElem?_modify, same, Function.comp_def]

/-- Every operation keeps a graph well formed. -/
theorem WellFormed.apply {graph : Graph} (wellFormed : graph.WellFormed) (operation : Operation) :
    (graph.apply operation).1.WellFormed := by
  cases operation with
  | addEntity name => exact wellFormed.addEntity name
  | addEvent source target kind location =>
    simp only [Graph.apply, addEvent?]
    split_ifs with refused
    · exact wellFormed
    · obtain ⟨leaves, enters⟩ := not_or.mp refused
      exact wellFormed.addEvent (Nat.lt_of_not_le leaves) (Nat.lt_of_not_le enters) kind location
  | rename entity name =>
    simp only [Graph.apply]
    split
    · exact wellFormed.rename ‹_›
    · exact wellFormed
  | setEnabled event enabled =>
    simp only [Graph.apply, setEnabled?]
    split_ifs
    · exact wellFormed
    · exact (graph.sameShape_setEnabled event enabled).wellFormed wellFormed
  | disableIf condition => exact (graph.sameShape_disable _).wellFormed wellFormed

/-- So do operations one after another. -/
theorem WellFormed.run {graph : Graph} (wellFormed : graph.WellFormed)
    (operations : List Operation) : (graph.run operations).WellFormed := by
  induction operations generalizing graph with
  | nil => exact wellFormed
  | cons operation rest ih => exact ih (wellFormed.apply operation)

/-- An event stands once among the numbers of which a condition holds if it holds of the event, and
not at all otherwise. -/
theorem count_filter_range {bound event : Nat} (inside : event < bound) (holds : Nat → Bool) :
    ((List.range bound).filter holds).count event = if holds event then 1 else 0 := by
  cases held : holds event with
  | true =>
    rw [List.count_filter held, if_pos rfl]
    exact List.count_eq_one_of_mem List.nodup_range (List.mem_range.mpr inside)
  | false =>
    refine List.count_eq_zero.mpr fun listed => ?_
    rw [(List.mem_filter.mp listed).2] at held
    contradiction

section

variable {graph : Graph} (wellFormed : graph.WellFormed)
include wellFormed

/-- The events that enter an entity are listed in increasing order. -/
theorem WellFormed.incoming_increasing (entity : EntityId) :
    (graph.incoming entity).Pairwise (· < ·) := by
  rw [wellFormed.incoming_eq]
  exact List.pairwise_lt_range.filter _

/-- An event is listed once as leaving its source, and nowhere else as leaving. -/
theorem WellFormed.count_outgoing {event : EventId} (inside : event < graph.numEvents)
    (entity : EntityId) :
    (graph.outgoing entity).count event = if graph.source event = entity then 1 else 0 := by
  rw [wellFormed.outgoing_eq, count_filter_range inside]
  simp only [beq_iff_eq]

/-- An event is listed once as entering its target, and nowhere else as entering. -/
theorem WellFormed.count_incoming {event : EventId} (inside : event < graph.numEvents)
    (entity : EntityId) :
    (graph.incoming entity).count event = if graph.target event = entity then 1 else 0 := by
  rw [wellFormed.incoming_eq, count_filter_range inside]
  simp only [beq_iff_eq]

end

/-! ## New events -/

/-- What an added event is given: a number that was that of no event before. Under that number there
is the event, enabled, and all else is as it was. -/
structure Issues (graph : Graph) (added : Graph × Answer) (event : Event) : Prop where
  /-- The number is the next one. -/
  answer_eq : added.2 = .event graph.numEvents
  /-- It was the number of no event. -/
  fresh : graph.events[graph.numEvents]? = none
  /-- Under it there is the event. -/
  holds : added.1.events[graph.numEvents]? = some event
  /-- One event is added. -/
  numEvents_eq : added.1.numEvents = graph.numEvents + 1
  /-- No entity is added. -/
  numEntities_eq : added.1.numEntities = graph.numEntities
  /-- The other events are as they were. -/
  others_eq : ∀ other ≠ graph.numEvents, added.1.events[other]? = graph.events[other]?

/-- An event between two entities is taken and given the next number. -/
theorem issues_addEvent {graph : Graph} {source target : EntityId}
    (known : source < graph.numEntities ∧ target < graph.numEntities) (kind : Kind)
    (location : Option Location) :
    graph.Issues (graph.apply (.addEvent source target kind location))
      ⟨source, target, kind, location, true⟩ := by
  have taken : ¬ (graph.numEntities ≤ source ∨ graph.numEntities ≤ target) :=
    not_or.mpr ⟨Nat.not_le.mpr known.1, Nat.not_le.mpr known.2⟩
  have applied : graph.apply (.addEvent source target kind location) =
      (graph.addEvent source target kind location, .event graph.numEvents) := by
    simp only [apply, addEvent?, if_neg taken]
  rw [applied]
  refine ⟨rfl, Array.getElem?_eq_none (Nat.le_refl _), ?_, by simp, by simp, fun other older => ?_⟩
  · rw [addEvent, numEvents, Array.getElem?_push, if_pos rfl]
  · rw [addEvent, Array.getElem?_push]
    exact if_neg older

/-- An event with an end that is no entity is refused, which changes nothing. -/
theorem apply_addEvent_of_not {graph : Graph} {source target : EntityId}
    (unknown : ¬ (source < graph.numEntities ∧ target < graph.numEntities)) (kind : Kind)
    (location : Option Location) :
    graph.apply (.addEvent source target kind location) =
      (graph, .refused ⟨source, target, graph.numEntities⟩) := by
  have foreign : graph.numEntities ≤ source ∨ graph.numEntities ≤ target :=
    (not_and_or.mp unknown).imp Nat.le_of_not_lt Nat.le_of_not_lt
  simp only [apply, addEvent?, if_pos foreign]

/-- Whatever operations make a graph of the one without entities: the events listed as leaving an
entity are all events with that source, and those listed as entering it all events with that target,
both in increasing order; both ends of every event are entities, so that it is listed once as
leaving, at its source, and once as entering, at its target. No further operations change the ends,
the kind or the point of instantiation of an event; an event with an end that is no entity is
refused, which changes nothing, and any other is given the next number, under which its parts are
found. -/
theorem lists_eq_run (operations more : List Operation) :
    let graph := empty.run operations
    (∀ entity, graph.outgoing entity =
        (List.range graph.numEvents).filter (graph.source · == entity) ∧
      (graph.outgoing entity).Pairwise (· < ·)) ∧
    (∀ entity, graph.incoming entity =
        (List.range graph.numEvents).filter (graph.target · == entity) ∧
      (graph.incoming entity).Pairwise (· < ·)) ∧
    (∀ event < graph.numEvents, graph.source event < graph.numEntities ∧
      graph.target event < graph.numEntities ∧
      ∀ entity,
        (graph.outgoing entity).count event = (if graph.source event = entity then 1 else 0) ∧
        (graph.incoming entity).count event = (if graph.target event = entity then 1 else 0)) ∧
    graph.Keeps (graph.run more) ∧
    ∀ source target kind location,
      let added := graph.apply (.addEvent source target kind location)
      if source < graph.numEntities ∧ target < graph.numEntities then
        graph.Issues added ⟨source, target, kind, location, true⟩
      else added = (graph, .refused ⟨source, target, graph.numEntities⟩) := by
  intro graph
  have wellFormed : graph.WellFormed := wellFormed_empty.run operations
  refine ⟨fun entity => ⟨wellFormed.outgoing_eq entity, wellFormed.outgoing_increasing entity⟩,
    fun entity => ⟨wellFormed.incoming_eq entity, wellFormed.incoming_increasing entity⟩,
    fun event inside => ⟨wellFormed.source_lt event inside, wellFormed.target_lt event inside,
      fun entity => ⟨wellFormed.count_outgoing inside entity,
        wellFormed.count_incoming inside entity⟩⟩,
    graph.keeps_run more, fun source target kind location => ?_⟩
  intro added
  split
  · rename_i known
    exact issues_addEvent known kind location
  · rename_i unknown
    exact apply_addEvent_of_not unknown kind location

/-- A self-loop and a parallel event, of which one is disabled and enabled again, are listed once at
each of their ends. An event between known entities is the third one, and an event to an entity that
was never added is refused. -/
theorem lists_eq_run_selfLoop :
    let graph := empty.run [.addEntity "root", .addEntity "a",
      .addEvent 1 1 .memoization none, .addEvent 0 2 .memoization none,
      .addEvent 0 1 .templateInstantiation none, .disableIf fun _ _ => true, .rename 1 "b",
      .setEnabled 1 true]
    graph.outgoing 1 = [0] ∧ graph.incoming 1 = [0, 1] ∧
      (graph.outgoing 1).count 0 = 1 ∧ (graph.incoming 1).count 0 = 1 ∧
      (graph.apply (.addEvent 1 0 .memoization none)).1.events[2]? =
        some ⟨1, 0, .memoization, none, true⟩ ∧
      graph.apply (.addEvent 0 2 .memoization none) = (graph, .refused ⟨0, 2, 2⟩) := by
  intro graph
  obtain ⟨leaving, entering, listed, -, adds⟩ := lists_eq_run
    [.addEntity "root", .addEntity "a", .addEvent 1 1 .memoization none,
      .addEvent 0 2 .memoization none, .addEvent 0 1 .templateInstantiation none,
      .disableIf fun _ _ => true, .rename 1 "b", .setEnabled 1 true] []
  obtain ⟨-, -, counts⟩ := listed 0 (by decide)
  have known := adds 1 0 .memoization none
  rw [if_pos (by decide)] at known
  have unknown := adds 0 2 .memoization none
  rw [if_neg (by decide)] at unknown
  exact ⟨(leaving 1).1.trans (by decide), (entering 1).1.trans (by decide),
    (counts 1).1.trans (by decide), (counts 1).2.trans (by decide), known.holds, unknown⟩

end Retrace.Graph
