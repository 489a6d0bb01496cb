import Retrace.Proofs.Progress
import Retrace.Proofs.Replay

/-!
# Walks after filtering

A filter in the middle of a walk can change the order of what follows: an entity may be discovered
later and through another event, and events that were leaves may lead on. It never adds to it. What
the walk would still enter is the least set that holds its agenda and, with an event, the enabled
events that leave its target, where that is not discovered yet (`Graph.forwardLoop_induction`); a
graph with fewer enabled events gives a smaller agenda (`agenda_subset`) and a smaller set
(`Graph.Narrows.mem_forwardLoop`).

The main statement, `disableIf_narrows_run`, compares the run to the end of a reachable session with
that of the same session after a filter.
-/
namespace Retrace

/-! ## Graphs with fewer enabled events -/

/-- A graph agrees with another in everything but the marks of its events, and enables no others. -/
structure Graph.Narrows (graph narrower : Graph) : Prop extends graph.SameShape narrower where
  /-- What is enabled was enabled. -/
  isEnabled_of : ∀ event, narrower.isEnabled event = true → graph.isEnabled event = true

/-- Disabling by a condition narrows a graph. -/
theorem Graph.narrows_disableIf (graph : Graph) (condition : Graph → EventId → Bool) :
    graph.Narrows (graph.disableIf condition).1 where
  toSameShape := graph.sameShape_disable _
  isEnabled_of event enabled := by
    rw [isEnabled_disableIf, Bool.and_eq_true] at enabled
    exact enabled.1

namespace Graph.Narrows

variable {graph narrower : Graph} (narrows : graph.Narrows narrower)
include narrows

/-- No more events can be entered from an entity. -/
theorem enabledOutgoing_subset (entity : EntityId) :
    narrower.enabledOutgoing entity ⊆ graph.enabledOutgoing entity := by
  intro event listed
  obtain ⟨leaves, enabled⟩ := List.mem_filter.mp listed
  have same : narrower.outgoing entity = graph.outgoing entity := by
    simp [outgoing, narrows.entities_eq]
  exact List.mem_filter.mpr ⟨same ▸ leaves, narrows.isEnabled_of event enabled⟩

/-- No more events come after those of a trail. -/
theorem later_subset (trail : List EventId) : narrower.later trail ⊆ graph.later trail := by
  induction trail with
  | nil => exact List.Subset.refl _
  | cons event below ih =>
    rw [later, later, narrows.source_eq]
    refine List.append_subset.mpr ⟨?_, fun _ listed => List.mem_append_right _ (ih listed)⟩
    refine List.subset_append_of_subset_left _ (List.map_subset _ fun other listed => ?_)
    obtain ⟨leaves, after⟩ := List.mem_filter.mp listed
    exact List.mem_filter.mpr ⟨narrows.enabledOutgoing_subset _ leaves, after⟩

/-- A walk has no more before it. -/
theorem agenda_subset (walk : Walk) : walk.agenda narrower ⊆ walk.agenda graph := by
  have opening : walk.opening narrower ⊆ walk.opening graph := by
    cases stack : walk.stack with
    | nil => simp [Walk.opening, stack]
    | cons top below =>
      have leaf : walk.isLeaf narrower top = walk.isLeaf graph top := by
        cases top <;> simp [Walk.isLeaf, narrows.target_eq]
      have entity : top.entity narrower = top.entity graph := by
        cases top <;> simp [Frame.entity, narrows.target_eq]
      simp only [Walk.opening, stack, leaf, entity]
      split
      · exact List.Subset.refl _
      · exact narrows.enabledOutgoing_subset _
  refine List.append_subset.mpr ⟨?_, fun _ listed => ?_⟩
  · exact List.subset_append_of_subset_left _ (List.map_subset _ opening)
  · exact List.mem_append_right _ (narrows.later_subset _ listed)

/-- The loop of a forward trace lists no more of no more pending events, and only enabled events if
all of the pending ones are. -/
theorem mem_forwardLoop (wellFormed : graph.WellFormed) {met : Array Bool}
    {pending fewer : List (Nat × EventId)} (subset : fewer ⊆ pending)
    (enabled : ∀ event ∈ fewer.map Prod.snd, narrower.isEnabled event = true) :
    ∀ event ∈ (narrower.forwardLoop none met fewer).map ForwardLine.event,
      event ∈ (graph.forwardLoop none met pending).map ForwardLine.event ∧
        narrower.isEnabled event = true := by
  have kept := narrows.toSameShape.wellFormed wellFormed
  refine forwardLoop_induction kept (fun event first => ?_) fun event before own marked unmet
    origin => ?_
  · have pended := List.map_subset Prod.snd subset first
    exact ⟨(mem_forwardLoop_iff wellFormed event).mpr (.inl pended), enabled event first⟩
  · rw [narrows.source_eq, narrows.target_eq] at origin
    rw [narrows.source_eq] at unmet
    have below := List.mem_map_of_mem (f := graph.target) own.1
    rw [← origin] at below
    have wide := narrows.isEnabled_of event marked
    exact ⟨(mem_forwardLoop_iff wellFormed event).mpr (.inr ⟨wide, unmet, below⟩), marked⟩

end Graph.Narrows

/-- Only enabled events come after those of a trail. -/
theorem Graph.isEnabled_of_mem_later {graph : Graph} (wellFormed : graph.WellFormed)
    {trail : List EventId} :
    ∀ event ∈ (graph.later trail).map Prod.snd, graph.isEnabled event = true := by
  induction trail with
  | nil => simp [later]
  | cons left below ih =>
    intro event listed
    rw [later, List.map_append, map_snd_pending] at listed
    rcases List.mem_append.mp listed with here | lower
    · exact (wellFormed.mem_enabledOutgoing.mp (List.mem_of_mem_filter here)).1
    · exact ih event lower

/-- Only enabled events are on an agenda. -/
theorem Walk.isEnabled_of_mem_agenda {graph : Graph} (wellFormed : graph.WellFormed) (walk : Walk) :
    ∀ event ∈ (walk.agenda graph).map Prod.snd, graph.isEnabled event = true := by
  intro event listed
  rw [agenda, List.map_append, Graph.map_snd_pending] at listed
  rcases List.mem_append.mp listed with first | later
  · cases stack : walk.stack with
    | nil => simp [opening, stack] at first
    | cons top below =>
      simp only [opening, stack] at first
      split at first
      · exact absurd first List.not_mem_nil
      · exact (wellFormed.mem_enabledOutgoing.mp first).1
  · exact Graph.isEnabled_of_mem_later wellFormed event later

namespace Session

/-! ## Runs to the end from anywhere -/

/-- What a session goes through when it is run to the end. -/
def ahead (session : Session) : List ForwardLine :=
  session.graph.forwardLoop none session.walk.discovered (session.walk.agenda session.graph)

/-- Number of steps in which a session is run to the end. -/
def stepsAhead (session : Session) : Nat :=
  if session.isFinished then 0 else session.ahead.length + 1

/-- A finished session has nothing before it. -/
theorem ahead_of_isFinished {session : Session} (finished : session.isFinished = true) :
    session.ahead = [] := by
  have stack : session.walk.stack = [] := List.isEmpty_iff.mp finished
  rw [ahead, Walk.agenda, Walk.trail_eq, Walk.opening, stack]
  simp [Graph.later, Graph.forwardLoop]

/-- An unfinished session goes through what it has before it. -/
theorem Traced.replays_ahead {session : Session} {past : List Session}
    (traced : Traced session past) (unfinished : session.isFinished = false) :
    session.Replays session.ahead :=
  Poised.replays_forwardLoop rfl ⟨traced.wellFormed, traced.sound, unfinished, rfl, rfl⟩

/-- Run to its end, a session has entered the events before it and discovered their targets. -/
theorem Traced.run_ahead {session : Session} {past : List Session} (traced : Traced session past) :
    session.EndsIn session.stepsAhead ∧
      (Session.step^[session.stepsAhead] session).entered =
        session.entered ++ session.ahead.map ForwardLine.event ∧
      ∀ entity, (Session.step^[session.stepsAhead] session).walk.isDiscovered entity = true ↔
        session.walk.isDiscovered entity = true ∨
          entity ∈ (session.ahead.map ForwardLine.event).map session.graph.target := by
  cases finished : session.isFinished with
  | true =>
    rw [stepsAhead, if_pos finished, ahead_of_isFinished finished]
    refine ⟨⟨finished, fun fewer less => absurd less (Nat.not_lt_zero fewer)⟩, ?_, fun entity => ?_⟩
    · exact (List.append_nil _).symm
    · simp
  | false =>
    have replays := traced.replays_ahead finished
    rw [stepsAhead, finished, if_neg Bool.false_ne_true]
    obtain ⟨entered, discovered, _⟩ := replays.last
    exact ⟨replays.endsIn, entered, discovered⟩

/-- No more events are before a session than its graph has, and none of them twice. -/
theorem Traced.nodup_ahead {session : Session} {past : List Session}
    (traced : Traced session past) :
    (session.ahead.map ForwardLine.event).Nodup ∧
      session.ahead.length ≤ session.graph.numEvents := by
  obtain ⟨_, last⟩ := traced.iterate_step session.stepsAhead
  obtain ⟨distinct, passed⟩ := last.passed_entered
  rw [traced.run_ahead.2.1] at distinct passed
  have distinct := (List.nodup_append.mp distinct).2.1
  refine ⟨distinct, ?_⟩
  have within : session.ahead.map ForwardLine.event ⊆ List.range session.graph.numEvents := by
    intro event listed
    have inside := (passed event (List.mem_append_right _ listed)).1
    rw [graph_iterate_step] at inside
    exact List.mem_range.mpr inside
  simpa using (distinct.subperm within).length_le

/-- A session of fewer events than a word can count is run to the end by the steps before it. -/
theorem Traced.continueToEnd_eq {session : Session} {past : List Session}
    (traced : Traced session past) (countable : session.graph.numEvents < Text.maxWord) :
    session.continueToEnd = (Session.step^[session.stepsAhead] session, session.stepsAhead) := by
  refine traced.run_ahead.1.continueToEnd_eq ?_
  have few := traced.nodup_ahead.2
  rw [stepsAhead]
  split <;> omega

/-- A session that is stepped to its end, with the events noted on the way, goes through what is
before it. -/
theorem Traced.remaining_eq {session : Session} {past : List Session}
    (traced : Traced session past) : session.remaining =
      (Session.step^[session.stepsAhead] session, session.ahead.map ForwardLine.event) := by
  have few : session.stepsAhead ≤ session.graph.numEvents + 1 := by
    have few := traced.nodup_ahead.2
    rw [stepsAhead]
    split <;> omega
  obtain ⟨last, entered⟩ := traced.run_ahead.1.remainingLoop_spec few
  rw [traced.run_ahead.2.1] at entered
  exact Prod.ext last (List.append_cancel_left entered).symm

/-! ## Filters before a run -/

/-- A filter leaves the walk as it is and narrows the graph. -/
theorem narrows_disableIf (session : Session) (condition : Graph → EventId → Bool) :
    session.graph.Narrows (session.disableIf condition).1.graph :=
  session.graph.narrows_disableIf condition

/-- After a filter, a session has no more before it, and none of the disabled events. -/
theorem Traced.ahead_disableIf_subset {session : Session} {past : List Session}
    (traced : Traced session past) (condition : Graph → EventId → Bool) :
    ∀ event ∈ (session.disableIf condition).1.ahead.map ForwardLine.event,
      event ∈ session.ahead.map ForwardLine.event ∧
        (session.disableIf condition).1.graph.isEnabled event = true := by
  have narrows := session.narrows_disableIf condition
  have wellFormed := narrows.toSameShape.wellFormed traced.wellFormed
  exact narrows.mem_forwardLoop traced.wellFormed (narrows.agenda_subset session.walk)
    (Walk.isEnabled_of_mem_agenda wellFormed session.walk)

/-- From any reachable session, a run to the end after a filter enters only events that the run to
the end without the filter enters, and none that is disabled; it takes no more steps, and what it
discovers the other run discovers too. -/
theorem disableIf_narrows_run {session : Session} (reachable : session.Reachable)
    (condition : Graph → EventId → Bool) :
    let filtered := (session.disableIf condition).1
    ∃ long short, session.EndsIn long ∧ filtered.EndsIn short ∧ short ≤ long ∧
      (session.graph.numEvents < Text.maxWord →
        session.continueToEnd = (step^[long] session, long) ∧
          filtered.continueToEnd = (step^[short] filtered, short)) ∧
      (∃ more less : List EventId, (step^[long] session).entered = session.entered ++ more ∧
        (step^[short] filtered).entered = session.entered ++ less ∧ less ⊆ more ∧
        ∀ event ∈ less,
          session.graph.isEnabled event = true ∧ condition session.graph event = false) ∧
      ∀ entity, (step^[short] filtered).walk.isDiscovered entity = true →
        (step^[long] session).walk.isDiscovered entity = true := by
  intro filtered
  obtain ⟨past, traced⟩ := reachable.traced
  obtain ⟨past', applied⟩ := (reachable.apply (.disableIf condition)).traced
  have traced' : Traced filtered past' := applied
  have shape := (session.narrows_disableIf condition).toSameShape
  obtain ⟨ends, entered, discovered⟩ := traced.run_ahead
  obtain ⟨ends', entered', discovered'⟩ := traced'.run_ahead
  have subset := traced.ahead_disableIf_subset condition
  have fewer : filtered.ahead.map ForwardLine.event ⊆ session.ahead.map ForwardLine.event :=
    fun event listed => (subset event listed).1
  refine ⟨session.stepsAhead, filtered.stepsAhead, ends, ends', ?_, fun countable => ?_,
    ⟨_, _, entered, entered', fewer, fun event listed => ?_⟩, fun entity found => ?_⟩
  · have shorter := (traced'.nodup_ahead.1.subperm fewer).length_le
    rw [List.length_map, List.length_map] at shorter
    have same : filtered.isFinished = session.isFinished := rfl
    rw [stepsAhead, stepsAhead, same]
    split <;> omega
  · refine ⟨traced.continueToEnd_eq countable, traced'.continueToEnd_eq ?_⟩
    exact shape.numEvents_eq ▸ countable
  · have enabled : (session.graph.disableIf condition).1.isEnabled event = true :=
      (subset event listed).2
    rw [Graph.isEnabled_disableIf] at enabled
    simpa using enabled
  · rw [discovered]
    rcases (discovered' entity).mp found with before | after
    · exact .inl before
    · obtain ⟨event, listed, rfl⟩ := List.mem_map.mp after
      rw [shape.target_eq]
      exact .inr (List.mem_map_of_mem (fewer listed))

/-- After a filter in the middle of a walk, an entity is discovered through another event, which was
a leaf without the filter, and the events below it come in another order. -/
theorem disableIf_narrows_run_rerouted :
    let commands : List Command :=
      [.addEntity "a", .addEntity "b", .addEvent 0 1 .templateInstantiation none,
        .addEvent 1 2 .memoization none, .addEvent 0 2 .templateInstantiation none,
        .addEvent 2 1 .templateInstantiation none, .step]
    let session := (Session.new "root" "int").run commands
    let filtered := (session.disableKind .memoization).1
    session.Reachable ∧ session.graph.numEvents < Text.maxWord ∧
      (step^[4] session).entered = [0, 1, 3, 2] ∧ (step^[3] filtered).entered = [0, 2, 3] ∧
      (step^[4] session).isFinished = true ∧ (step^[3] filtered).isFinished = true ∧
      filtered.continueToEnd.2 ≤ session.continueToEnd.2 ∧
      ∃ more less : List EventId, session.continueToEnd.1.entered = [0] ++ more ∧
        filtered.continueToEnd.1.entered = [0] ++ less ∧ less ⊆ more := by
  intro commands session filtered
  have reachable : session.Reachable := ⟨"root", "int", commands, rfl⟩
  have countable : session.graph.numEvents < Text.maxWord := by decide
  have before : session.entered = [0] := by decide
  obtain ⟨long, short, -, -, fewer, runs, ⟨more, less, whole, part, subset, -⟩, -⟩ :=
    disableIf_narrows_run reachable fun graph event => (Filter.kind .memoization).holds graph event
  obtain ⟨run, run'⟩ := runs countable
  have run' : filtered.continueToEnd = (step^[short] filtered, short) := run'
  refine ⟨reachable, countable, by decide, by decide, by decide, by decide, ?_, more, less, ?_, ?_,
    subset⟩
  · rw [run, run']
    exact fewer
  · rw [run, whole, before]
  · rw [run', ← before]
    exact part

end Session

end Retrace
