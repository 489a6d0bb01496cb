import Retrace.Proofs.Caching

/-!
# Filters in any order

A filter disables the enabled events of which its condition holds, so what it does depends on the
marks that earlier filters have left. When the condition itself does not (`Graph.IgnoresMarks`), the
order of filters, and how often one is repeated, makes no difference: after any number of them an
event is disabled when it was before or when some condition holds of it (`isEnabled_run`). Each
event is counted by the first filter that disables it and by no other, so the reports add up to the
growth of the number of disabled events (`numDisabled_run`).

Of the filters that are given as data, only those that count the enabled or the disabled events
depend on marks (`Filter.ignoresMarks`).
-/
namespace Retrace

namespace Graph

/-! ## Conditions that ignore marks -/

/-- A condition whose answers do not depend on which events are enabled. -/
def IgnoresMarks (condition : Graph → EventId → Bool) : Prop :=
  ∀ graph marked enabled event,
    condition (graph.setEnabled marked enabled) event = condition graph event

/-- What asks for the number of an event, its kind, its ends, the names of entities and its
location, and for nothing else, ignores marks. -/
theorem ignoresMarks_of_reads
    (reads : EventId → Option Kind → EntityId → EntityId → (EntityId → String) → Option Location →
      Bool) :
    IgnoresMarks fun graph event => reads event (graph.events[event]?.map (·.kind))
      (graph.source event) (graph.target event) graph.name (graph.location? event) := by
  intro graph marked enabled event
  have names : (graph.setEnabled marked enabled).name = graph.name := rfl
  have kind : (graph.setEnabled marked enabled).events[event]?.map (·.kind) =
      graph.events[event]?.map (·.kind) := by
    rw [getElem?_setEnabled, Option.map_map]
    congr 1
    funext found
    simp only [Function.comp_apply]
    split <;> rfl
  have location : (graph.setEnabled marked enabled).location? event = graph.location? event := by
    rw [location?, location?, getElem?_setEnabled]
    cases graph.events[event]? with
    | none => rfl
    | some found =>
      simp only [Option.map_some, Option.bind_some]
      split <;> rfl
  simp only [names, kind, location, source_setEnabled, target_setEnabled]

end Graph

namespace Filter

/-! ### Filters that ignore marks -/

mutual

/-- Whether a filter asks which events are enabled. -/
def asksMarks : Filter → Bool
  | disabledIs _ | every _ => true
  | not filter => asksMarks filter
  | all filters | any filters => someAsksMarks filters
  | _ => false

/-- Whether one of several filters does. -/
def someAsksMarks : List Filter → Bool
  | [] => false
  | filter :: filters => asksMarks filter || someAsksMarks filters

end

mutual

/-- A filter that does not ask for marks holds of the same events after a mark is written. -/
theorem holds_setEnabled (graph : Graph) (marked : EventId) (enabled : Bool) (event : EventId) :
    ∀ filter : Filter, asksMarks filter = false →
      holds (graph.setEnabled marked enabled) event filter = holds graph event filter
  | kind wanted, _ => by
    have reads := Graph.ignoresMarks_of_reads fun _ found _ _ _ _ => found.any (· == wanted)
    simpa only [holds, Option.any_map] using reads graph marked enabled event
  | targetContains fragment, _ => by
    have reads := Graph.ignoresMarks_of_reads fun _ _ _ target name _ =>
      Text.contains (name target) fragment
    simpa only [holds] using reads graph marked enabled event
  | sourceContains fragment, _ => by
    have reads := Graph.ignoresMarks_of_reads fun _ _ source _ name _ =>
      Text.contains (name source) fragment
    simpa only [holds] using reads graph marked enabled event
  | file name, _ => by
    have reads := Graph.ignoresMarks_of_reads fun _ _ _ _ _ location =>
      location.any (·.file == name)
    simpa only [holds] using reads graph marked enabled event
  | withoutLocation wanted, _ => by
    have reads := Graph.ignoresMarks_of_reads fun _ _ _ _ _ location => location.isNone == wanted
    simpa only [holds] using reads graph marked enabled event
  | oneOf events, _ => by rw [holds, holds]
  | selfLoop wanted, _ => by
    rw [holds, holds, Graph.source_setEnabled, Graph.target_setEnabled]
  | fanInOver count, _ => by
    rw [holds, holds, Graph.target_setEnabled]
    rfl
  | not filter, quiet => by
    rw [asksMarks] at quiet
    rw [holds, holds, holds_setEnabled graph marked enabled event filter quiet]
  | all filters, quiet => by
    rw [asksMarks] at quiet
    rw [holds, holds, (holds_setEnabled_list graph marked enabled event filters quiet).1]
  | any filters, quiet => by
    rw [asksMarks] at quiet
    rw [holds, holds, (holds_setEnabled_list graph marked enabled event filters quiet).2]
  | disabledIs _, asks => by simp [asksMarks] at asks
  | every _, asks => by simp [asksMarks] at asks

/-- So do several of them, all at once or some of them. -/
theorem holds_setEnabled_list (graph : Graph) (marked : EventId) (enabled : Bool)
    (event : EventId) : ∀ filters : List Filter, someAsksMarks filters = false →
      holdsAll (graph.setEnabled marked enabled) event filters = holdsAll graph event filters ∧
      holdsAny (graph.setEnabled marked enabled) event filters = holdsAny graph event filters
  | [], _ => ⟨rfl, rfl⟩
  | filter :: filters, quiet => by
    rw [someAsksMarks, Bool.or_eq_false_iff] at quiet
    have first := holds_setEnabled graph marked enabled event filter quiet.1
    obtain ⟨all, any⟩ := holds_setEnabled_list graph marked enabled event filters quiet.2
    exact ⟨by rw [holdsAll, holdsAll, first, all], by rw [holdsAny, holdsAny, first, any]⟩

end

/-- A filter that does not ask for marks ignores them as a condition. -/
theorem ignoresMarks {filter : Filter} (quiet : filter.asksMarks = false) :
    Graph.IgnoresMarks fun graph event => filter.holds graph event :=
  fun graph marked enabled event => holds_setEnabled graph marked enabled event filter quiet

/-- A filter that counts enabled events does ask: carried out again, it disables another one. -/
example :
    let graph := Graph.empty.run [.addEntity "root", .addEvent 0 0 .memoization none,
      .addEvent 0 0 .memoization none, .addEvent 0 0 .memoization none]
    let filter := Filter.every 2
    let once := graph.disableIf fun graph event => filter.holds graph event
    filter.asksMarks = true ∧ once.2 = 1 ∧
      (once.1.disableIf fun graph event => filter.holds graph event).2 = 1 := by
  decide

end Filter

namespace Graph

section

variable {condition : Graph → EventId → Bool} (ignores : IgnoresMarks condition)
include ignores

/-- A condition that ignores marks answers the same when events are disabled. -/
theorem IgnoresMarks.disable (graph : Graph) (events : List EventId) (event : EventId) :
    condition (graph.disable events) event = condition graph event := by
  induction events generalizing graph with
  | nil => rfl
  | cons marked events ih => exact (ih _).trans (ignores graph marked false event)

/-- A condition that ignores marks answers the same after a filter. -/
theorem IgnoresMarks.disableIf (graph : Graph) (other : Graph → EventId → Bool) (event : EventId) :
    condition (graph.disableIf other).1 event = condition graph event :=
  ignores.disable graph (graph.matching other) event

end

/-! ## Counts of filters -/

/-- A filter disables as many more events as it reports. -/
theorem numDisabled_disableIf (graph : Graph) (condition : Graph → EventId → Bool) :
    (graph.disableIf condition).1.numDisabled =
      graph.numDisabled + (graph.disableIf condition).2 := by
  have split (events : List EventId) :
      events.countP (fun event => !(graph.isEnabled event && !condition graph event)) =
        events.countP (fun event => !graph.isEnabled event) +
          (events.filter fun event => graph.isEnabled event && condition graph event).length := by
    rw [← List.countP_eq_length_filter]
    induction events with
    | nil => rfl
    | cons event events ih =>
      rw [List.countP_cons, List.countP_cons, List.countP_cons, ih]
      cases graph.isEnabled event <;> cases condition graph event <;> simp <;> omega
  have size : (graph.disableIf condition).1.numEvents = graph.numEvents :=
    (graph.narrows_disableIf condition).numEvents_eq
  rw [numDisabled_eq, numDisabled_eq, size]
  simp only [isEnabled_disableIf]
  exact split (List.range graph.numEvents)

/-- A filter of which no enabled event is left changes nothing and reports none. -/
theorem disableIf_eq_self {graph : Graph} {condition : Graph → EventId → Bool}
    (none : ∀ event, graph.isEnabled event = true → condition graph event = false) :
    graph.disableIf condition = (graph, 0) := by
  have unmatched : graph.matching condition = [] := by
    refine List.filter_eq_nil_iff.mpr fun event _ => ?_
    rw [Bool.and_eq_true]
    rintro ⟨enabled, holds⟩
    rw [none event enabled] at holds
    contradiction
  rw [disableIf, unmatched]
  rfl

end Graph

namespace Session

/-! ## Commands that filter -/

/-- The condition by which a command disables events. -/
def Command.condition? : Command → Option (Graph → EventId → Bool)
  | .disableKind kind => some fun graph event => (Filter.kind kind).holds graph event
  | .disableTo fragment =>
    some fun graph event => (Filter.targetContains fragment).holds graph event
  | .disableIf condition => some condition
  | _ => none

/-- Whether a command is a filter and an event of a graph meets its condition. -/
def Command.hits (command : Command) (graph : Graph) (event : EventId) : Bool :=
  command.condition?.any (· graph event)

/-- Commands that move the walk, and filters; a condition that is given must ignore marks. -/
def Command.MovesOrFilters : Command → Prop
  | .addEntity _ | .addEvent .. => False
  | .disableIf condition => Graph.IgnoresMarks condition
  | _ => True

/-- A command that moves or filters does one of the two, and its condition ignores marks. -/
theorem Command.MovesOrFilters.isMove_or {command : Command}
    (admissible : command.MovesOrFilters) : command.isMove = true ∨
      ∃ condition, command.condition? = some condition ∧ Graph.IgnoresMarks condition := by
  cases command with
  | disableKind kind => exact .inr ⟨_, rfl, Filter.ignoresMarks rfl⟩
  | disableTo fragment => exact .inr ⟨_, rfl, Filter.ignoresMarks rfl⟩
  | disableIf condition => exact .inr ⟨condition, rfl, admissible⟩
  | addEntity name => exact admissible.elim
  | addEvent => exact admissible.elim
  | _ => exact .inl rfl

/-- The number that an outcome reports, if any. -/
def Outcome.number : Outcome → Nat
  | .count number => number
  | _ => 0

/-- What the filters among some commands report, added up. -/
def reported (session : Session) : List Command → Nat
  | [] => 0
  | command :: commands =>
    (if command.condition?.isSome then (session.apply command).2.number else 0) +
      (session.apply command).1.reported commands

variable {session : Session} {command : Command} {commands : List Command}
  {condition : Graph → EventId → Bool}

/-- A filter disables events by its condition and reports how many. -/
theorem apply_of_condition? (filters : command.condition? = some condition) :
    session.apply command = counted (session.disableIf condition) := by
  cases command with
  | disableKind kind => exact Option.some.inj filters ▸ rfl
  | disableTo fragment => exact Option.some.inj filters ▸ rfl
  | disableIf other => exact Option.some.inj filters ▸ rfl
  | _ => simp [Command.condition?] at filters

/-- A command that moves the walk is no filter. -/
theorem condition?_of_isMove (moves : command.isMove = true) : command.condition? = none := by
  cases command with
  | disableKind | disableTo | disableIf => simp [Command.isMove] at moves
  | _ => rfl

/-- A command that moves or filters leaves an event enabled unless it hits it. -/
theorem isEnabled_apply (admissible : command.MovesOrFilters) (event : EventId) :
    (session.apply command).1.graph.isEnabled event =
      (session.graph.isEnabled event && !command.hits session.graph event) := by
  rcases admissible.isMove_or with moves | ⟨condition, filters, _⟩
  · rw [graph_apply_of_isMove session moves, Command.hits, condition?_of_isMove moves]
    simp
  · rw [apply_of_condition? filters, Command.hits, filters]
    exact session.graph.isEnabled_disableIf condition event

/-- What a command hits, it hits after other commands that move or filter. -/
theorem hits_apply {other : Command} (admissible : command.MovesOrFilters)
    (ignores : other.MovesOrFilters) (event : EventId) :
    other.hits (session.apply command).1.graph event = other.hits session.graph event := by
  rcases ignores.isMove_or with moves | ⟨condition, filters, ignores⟩
  · rw [Command.hits, Command.hits, condition?_of_isMove moves]
    rfl
  · rw [Command.hits, Command.hits, filters, Option.any_some, Option.any_some]
    rcases admissible.isMove_or with moves | ⟨earlier, filters, _⟩
    · rw [graph_apply_of_isMove session moves]
    · rw [apply_of_condition? filters]
      exact ignores.disableIf session.graph earlier event

/-- A command that moves or filters disables as many more events as it reports as a filter. -/
theorem numDisabled_apply (admissible : command.MovesOrFilters) :
    (session.apply command).1.graph.numDisabled = session.graph.numDisabled +
      if command.condition?.isSome then (session.apply command).2.number else 0 := by
  rcases admissible.isMove_or with moves | ⟨condition, filters, _⟩
  · rw [graph_apply_of_isMove session moves, condition?_of_isMove moves]
    rfl
  · rw [apply_of_condition? filters, filters]
    exact session.graph.numDisabled_disableIf condition

/-! ## Runs -/

/-- After commands that move or filter, the events enabled are those that were and that no command
hits. -/
theorem isEnabled_run (admissible : ∀ command ∈ commands, command.MovesOrFilters)
    (event : EventId) : (session.run commands).graph.isEnabled event =
      (session.graph.isEnabled event && !commands.any (·.hits session.graph event)) := by
  induction commands generalizing session with
  | nil => simp [run]
  | cons command rest ih =>
    obtain ⟨first, later⟩ := List.forall_mem_cons.mp admissible
    have kept : rest.any (·.hits (session.apply command).1.graph event) =
        rest.any (·.hits session.graph event) := by
      rw [Bool.eq_iff_iff, List.any_eq_true, List.any_eq_true]
      refine exists_congr fun other => and_congr_right fun listed => ?_
      rw [hits_apply first (later other listed)]
    rw [run, List.foldl_cons, ← run, ih later, isEnabled_apply first, kept, List.any_cons,
      Bool.not_or, Bool.and_assoc]

/-- Commands that move or filter disable as many more events as the filters report. -/
theorem numDisabled_run (admissible : ∀ command ∈ commands, command.MovesOrFilters) :
    (session.run commands).graph.numDisabled =
      session.graph.numDisabled + session.reported commands := by
  induction commands generalizing session with
  | nil => rfl
  | cons command rest ih =>
    obtain ⟨first, later⟩ := List.forall_mem_cons.mp admissible
    rw [run, List.foldl_cons, ← run, ih later, numDisabled_apply first, reported, Nat.add_assoc]

/-- What a command hits, it hits after a run of commands that move or filter. -/
theorem hits_run (admissible : ∀ command ∈ commands, command.MovesOrFilters)
    (ignores : command.MovesOrFilters) (event : EventId) :
    command.hits (session.run commands).graph event = command.hits session.graph event := by
  induction commands generalizing session with
  | nil => rfl
  | cons first rest ih =>
    obtain ⟨now, later⟩ := List.forall_mem_cons.mp admissible
    rw [run, List.foldl_cons, ← run, ih later, hits_apply now ignores]

/-- A filter that is repeated after a run changes nothing and reports none. -/
theorem apply_again (admissible : ∀ command ∈ commands, command.MovesOrFilters)
    (listed : command ∈ commands) (filters : command.condition?.isSome = true) :
    (session.run commands).apply command = (session.run commands, .count 0) := by
  obtain ⟨condition, is⟩ := Option.isSome_iff_exists.mp filters
  have spent : ∀ event, (session.run commands).graph.isEnabled event = true →
      condition (session.run commands).graph event = false := by
    intro event enabled
    rw [isEnabled_run admissible, Bool.and_eq_true, Bool.not_eq_true', List.any_eq_false] at enabled
    have missed := enabled.2 command listed
    rw [← hits_run admissible (admissible command listed), Command.hits, is] at missed
    simpa using missed
  rw [apply_of_condition? is, disableIf, Graph.disableIf_eq_self spent]
  rfl

/-- Filters in any order, repeated or not and with any moves between them, disable the events that
one of them hits in the graph at the beginning, and no others. Their reports add up to the growth of
the number of disabled events. Each of them, repeated afterwards, changes nothing and reports none.
No commands enable an event again, and no filter changes the walk or the log. -/
theorem run_filters {session : Session} {commands : List Command}
    (admissible : ∀ command ∈ commands, command.MovesOrFilters) :
    let last := session.run commands
    (∀ event, last.graph.isEnabled event = false ↔ session.graph.isEnabled event = false ∨
      ∃ command ∈ commands, ∃ condition, command.condition? = some condition ∧
        condition session.graph event = true) ∧
      last.graph.numDisabled = session.graph.numDisabled + session.reported commands ∧
      (∀ command ∈ commands, command.condition?.isSome = true →
        last.apply command = (last, .count 0)) ∧
      (∀ (before : Session) (others : List Command), ∀ event < before.graph.numEvents,
        before.graph.isEnabled event = false →
          (before.run others).graph.isEnabled event = false) ∧
      ∀ (before : Session) (command : Command), command.condition?.isSome = true →
        (before.apply command).1.walk = before.walk ∧
          (before.apply command).1.log = before.log := by
  intro last
  refine ⟨fun event => ?_, numDisabled_run admissible,
    fun command listed filters => apply_again admissible listed filters,
    fun before others event inside disabled => ?_, fun before command filters => ?_⟩
  · rw [isEnabled_run admissible, Bool.and_eq_false_iff, Bool.not_eq_false', List.any_eq_true]
    simp only [Command.hits, Option.any_eq_true]
  · have evolves := before.evolves_run others
    rw [← Bool.not_eq_true] at disabled ⊢
    exact fun enabled => disabled (evolves.isEnabled_of event inside enabled)
  · obtain ⟨condition, is⟩ := Option.isSome_iff_exists.mp filters
    rw [apply_of_condition? is]
    exact ⟨rfl, rfl⟩

/-- Two filters that overlap, one of them twice, with moves and a reset between them. -/
theorem run_filters_overlapping :
    let session := (Session.new "root" "int").run
      [.addEntity "a", .addEntity "ab", .addEvent 0 1 .templateInstantiation none,
        .addEvent 0 2 .memoization none, .addEvent 1 2 .templateInstantiation none]
    let loops : Graph → EventId → Bool := fun graph event =>
      graph.source event == graph.target event
    let commands : List Command := [.step, .disableTo "b", .stepOver, .disableKind .memoization,
      .disableIf loops, .reset, .disableTo "b"]
    (∀ command ∈ commands, command.MovesOrFilters) ∧
      (session.run commands).graph.isEnabled 0 = true ∧
      (session.run commands).graph.isEnabled 1 = false ∧
      (session.run commands).graph.isEnabled 2 = false ∧
      (session.run commands).graph.numDisabled = 2 ∧ session.reported commands = 2 := by
  intro session loops commands
  have ignores : Graph.IgnoresMarks loops :=
    Graph.ignoresMarks_of_reads fun _ _ source target _ _ => source == target
  have admissible : ∀ command ∈ commands, command.MovesOrFilters := by
    simp only [commands, List.forall_mem_cons]
    exact ⟨trivial, trivial, trivial, trivial, ignores, trivial, trivial,
      fun _ listed => nomatch listed⟩
  obtain ⟨disabled, counts, _, _, _⟩ := @run_filters session commands admissible
  have reports : session.reported commands = 2 := by decide
  refine ⟨admissible, ?_, (disabled 1).mpr (.inr ?_), (disabled 2).mpr (.inr ?_), ?_, reports⟩
  · decide
  · exact ⟨.disableKind .memoization, by simp [commands], _, rfl, by decide⟩
  · exact ⟨.disableTo "b", by simp [commands], _, rfl, by decide⟩
  · rw [counts, reports]
    decide

end Session

end Retrace
