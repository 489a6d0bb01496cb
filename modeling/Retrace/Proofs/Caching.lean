import Retrace.Proofs.Filtering

/-!
# Forward traces from a cache

A cache makes a new listing only when the number of steps, the current event or the number of
disabled events has changed. These three numbers do not mention the graph, which the commands
between two requests may have changed. What they can do to it is `Graph.Evolves`: events and
entities are added, and no disabled event is enabled again. So an equal number of disabled events
means that every old event is marked as before (`Graph.Evolves.isEnabled_eq`), and a listing of the
same entity differs in the events that were added since and in nothing else.

The main statement is `answer_eq_forward`: a cache answers with the listing of the session as it
stands, without the events added since that listing was made. An event added in between is missing
until the walk moves or a filter disables something, `answer_without_addedEvent`.
-/
namespace Retrace

/-! ## Graphs that were added to and filtered -/

namespace Graph

/-- A graph made of another by adding to it and disabling events. -/
structure Evolves (graph later : Graph) : Prop extends graph.Extends later where
  /-- No disabled event was enabled. -/
  isEnabled_of : ∀ event < graph.numEvents,
    later.isEnabled event = true → graph.isEnabled event = true

/-- Every graph evolves into itself. -/
theorem Evolves.refl (graph : Graph) : graph.Evolves graph :=
  ⟨.refl graph, fun _ _ enabled => enabled⟩

/-- What evolves in two stages evolves. -/
theorem Evolves.trans {first second third : Graph} (lower : first.Evolves second)
    (upper : second.Evolves third) : first.Evolves third where
  toExtends := lower.toExtends.trans upper.toExtends
  isEnabled_of event inside enabled := lower.isEnabled_of event inside
    (upper.isEnabled_of event (Nat.lt_of_lt_of_le inside lower.numEvents_le) enabled)

/-- A graph evolves by an added entity. -/
theorem evolves_addEntity (graph : Graph) (name : String) :
    graph.Evolves (graph.addEntity name) :=
  ⟨graph.extends_addEntity name, fun _ _ enabled => enabled⟩

/-- A graph evolves by an added event. -/
theorem evolves_addEvent (graph : Graph) (source target : EntityId) (kind : Kind)
    (location : Option Location) : graph.Evolves (graph.addEvent source target kind location) where
  toExtends := graph.extends_addEvent source target kind location
  isEnabled_of event inside enabled := by
    have older : event ≠ graph.events.size := Nat.ne_of_lt inside
    simpa [isEnabled, addEvent, Array.getElem?_push, older] using enabled

/-- A graph evolves by a filter. -/
theorem evolves_disableIf (graph : Graph) (condition : Graph → EventId → Bool) :
    graph.Evolves (graph.disableIf condition).1 where
  toExtends := (graph.narrows_disableIf condition).extends
  isEnabled_of event _ := (graph.narrows_disableIf condition).isEnabled_of event

/-- The graph with the events disabled whose numbers are not below a bound. -/
def upTo (graph : Graph) (bound : Nat) : Graph :=
  (graph.disableIf fun _ event => bound ≤ event).1

/-- Up to a bound, the events below it are enabled as before. -/
theorem isEnabled_upTo (graph : Graph) (bound : Nat) (event : EventId) :
    (graph.upTo bound).isEnabled event = (graph.isEnabled event && decide (event < bound)) := by
  rw [upTo, isEnabled_disableIf, ← decide_not]
  simp only [Nat.not_le]

/-- Up to all its events, a graph is as it was. -/
theorem upTo_of_le {graph : Graph} {bound : Nat} (all : graph.numEvents ≤ bound) :
    graph.upTo bound = graph := by
  have none : graph.matching (fun _ event => decide (bound ≤ event)) = [] := by
    refine List.filter_eq_nil_iff.mpr fun event inside => ?_
    have below := List.mem_range.mp inside
    simp [Nat.lt_of_lt_of_le below all]
  rw [upTo, disableIf, none]
  rfl

/-! ## Numbers of disabled events -/

/-- Counting the places of a list is counting what stands there. -/
theorem countP_range_length {α : Type} (list : List α) (accepts : α → Bool) :
    (List.range list.length).countP (fun place => !list[place]?.any accepts) =
      list.countP fun item => !accepts item := by
  induction list with
  | nil => rfl
  | cons first rest ih =>
    rw [List.length_cons, List.range_succ_eq_map, List.countP_cons, List.countP_cons,
      List.countP_map, ← ih]
    rfl

/-- The disabled events, counted by their numbers. -/
theorem numDisabled_eq (graph : Graph) : graph.numDisabled =
    (List.range graph.numEvents).countP fun event => !graph.isEnabled event := by
  have listed := countP_range_length graph.events.toList Event.enabled
  simpa [numDisabled, numEvents, isEnabled] using listed.symm

/-- When as many events are disabled as before, every old event is marked as before: no old event
is enabled again, and there is no room for another disabled one. -/
theorem Evolves.isEnabled_eq {graph later : Graph} (evolves : graph.Evolves later)
    (same : graph.numDisabled = later.numDisabled) {event : EventId}
    (inside : event < graph.numEvents) : later.isEnabled event = graph.isEnabled event := by
  let before := (List.range graph.numEvents).filter fun event => !graph.isEnabled event
  let after := (List.range graph.numEvents).filter fun event => !later.isEnabled event
  have kept : before = (List.range graph.numEvents).filter fun event =>
      !graph.isEnabled event && !later.isEnabled event := by
    refine List.filter_congr fun event listed => ?_
    have less := evolves.isEnabled_of event (List.mem_range.mp listed)
    cases old : graph.isEnabled event <;> cases new : later.isEnabled event <;> simp_all
  have sublist : before.Sublist after := by
    rw [kept, ← List.filter_filter]
    exact List.filter_sublist
  have few : after.length ≤ before.length := by
    have old := (List.range_sublist.mpr evolves.numEvents_le).countP_le
      (p := fun event => !later.isEnabled event)
    rw [← numDisabled_eq, ← same, numDisabled_eq] at old
    simpa [before, after, List.countP_eq_length_filter] using old
  have equal := sublist.eq_of_length_le few
  have marks : event ∈ before ↔ event ∈ after := by rw [equal]
  simp only [before, after, List.mem_filter, List.mem_range, inside, true_and, Bool.not_eq_true']
    at marks
  cases old : graph.isEnabled event <;> cases new : later.isEnabled event <;> simp_all

/-! ## Listings of graphs that agree -/

/-- Two graphs list the same when the events that leave an entity are the same and lead to the same
entities, all of which are met in both or in neither. -/
theorem forwardLoop_congr {graph other : Graph} (wellFormed : graph.WellFormed)
    (leaves : ∀ entity, other.enabledOutgoing entity = graph.enabledOutgoing entity)
    (leads : ∀ event < graph.numEvents, other.target event = graph.target event)
    {bound : Option Nat} {met also : Array Bool} {pending : List (Nat × EventId)}
    (agree : ∀ entity < graph.numEntities, isMet also entity = isMet met entity)
    (inside : ∀ event ∈ pending.map Prod.snd, event < graph.numEvents) :
    other.forwardLoop bound also pending = graph.forwardLoop bound met pending := by
  fun_induction graph.forwardLoop bound met pending generalizing also
  case case1 => simp [forwardLoop]
  case case2 met depth event pending target known ih =>
    obtain ⟨first, rest⟩ := List.forall_mem_cons.mp inside
    have known' : isMet also (other.target event) = true := by
      rw [leads event first, agree _ (wellFormed.target_lt event first)]
      exact known
    rw [forwardLoop, dif_pos known', ih agree rest]
  case case3 met depth event pending target new cut ih =>
    obtain ⟨first, rest⟩ := List.forall_mem_cons.mp inside
    have new' : ¬ isMet also (other.target event) = true := by
      rw [leads event first, agree _ (wellFormed.target_lt event first)]
      exact new
    rw [forwardLoop, dif_neg new', if_pos cut, ih agree rest]
  case case4 met depth event pending target new going ih =>
    obtain ⟨first, rest⟩ := List.forall_mem_cons.mp inside
    have within : target < graph.numEntities := wellFormed.target_lt event first
    have new' : isMet also target = false := by
      rw [agree _ within]
      exact Bool.eq_false_iff.mpr new
    have below : other.target event = target := leads event first
    rw [forwardLoop, dif_neg (by simp [below, new']), if_neg going, below, leaves, ih]
    · intro entity known
      rw [isMet_setIfInBounds new', isMet_setIfInBounds (Bool.eq_false_iff.mpr new),
        agree entity known]
    · intro later listed
      rw [List.map_append, map_snd_pending] at listed
      rcases List.mem_append.mp listed with here | after
      · exact lt_of_isEnabled (wellFormed.mem_enabledOutgoing.mp here).1
      · exact rest later after

/-- A listing is the one of a later graph without the events added since, when as many events are
disabled. -/
theorem Evolves.forward_eq {graph later : Graph} (evolves : graph.Evolves later)
    (wellFormed : graph.WellFormed) (grown : later.WellFormed)
    (same : graph.numDisabled = later.numDisabled) {entity : EntityId}
    (inside : entity < graph.numEntities) :
    (later.upTo graph.numEvents).forward entity none = graph.forward entity none := by
  have shape := (later.narrows_disableIf fun _ event => graph.numEvents ≤ event).toSameShape
  have enabled (event : EventId) :
      (later.upTo graph.numEvents).isEnabled event = graph.isEnabled event := by
    rw [isEnabled_upTo]
    by_cases old : event < graph.numEvents
    · simp [old, evolves.isEnabled_eq same old]
    · simp [old, Bool.eq_false_iff.mpr (mt lt_of_isEnabled old)]
  have leaves (origin : EntityId) :
      (later.upTo graph.numEvents).enabledOutgoing origin = graph.enabledOutgoing origin := by
    refine ((shape.wellFormed grown).enabledOutgoing_increasing origin).eq_of_mem_iff
      (wellFormed.enabledOutgoing_increasing origin) fun event => ?_
    rw [(shape.wellFormed grown).mem_enabledOutgoing, wellFormed.mem_enabledOutgoing]
    have marks := enabled event
    rw [upTo] at marks
    rw [marks, shape.source_eq]
    refine and_congr_right fun marked => ?_
    rw [evolves.source_eq event (lt_of_isEnabled marked)]
  rw [forward, forward, leaves]
  refine forwardLoop_congr wellFormed leaves (fun event old => ?_) (fun other known => ?_) ?_
  · exact (shape.target_eq event).trans (evolves.target_eq event old)
  · have larger := evolves.numEntities_le
    have size : (later.upTo graph.numEvents).numEntities = later.numEntities :=
      shape.numEntities_eq
    rw [size, isMet_start inside known, isMet_start (inside.trans_le larger)
      (known.trans_le larger)]
  · intro event first
    rw [map_snd_pending] at first
    exact lt_of_isEnabled (wellFormed.mem_enabledOutgoing.mp first).1

end Graph

namespace Session

/-! ## Sessions with the same key -/

/-- An edit of a session only adds to its graph and disables events. -/
theorem evolves_edit (session : Session) (edit : Edit) :
    session.graph.Evolves (session.edit edit).graph := by
  cases edit with
  | addEntity name => exact session.graph.evolves_addEntity name
  | addEvent source target kind location =>
    simp only [Session.edit, addEvent?, Graph.addEvent?]
    split
    · exact .refl _
    · exact session.graph.evolves_addEvent source target kind location
  | disable condition => exact session.graph.evolves_disableIf condition

/-- Every command lets the graph evolve. -/
theorem evolves_apply (session : Session) (command : Command) :
    session.graph.Evolves (session.apply command).1.graph := by
  rw [← foldl_changes]
  rcases changes_isMove_or_edit session command with moves | ⟨_, edit, changes⟩
  · rw [graph_foldl_change session moves]
    exact .refl _
  · rw [changes]
    exact session.evolves_edit edit

/-- Every list of commands lets the graph evolve. -/
theorem evolves_run (session : Session) (commands : List Command) :
    session.graph.Evolves (session.run commands).graph := by
  induction commands generalizing session with
  | nil => exact .refl _
  | cons command rest ih => exact (session.evolves_apply command).trans (ih _)

/-- Commands make a reachable session of a reachable one. -/
theorem Reachable.run {session : Session} (reachable : session.Reachable)
    (commands : List Command) : (session.run commands).Reachable := by
  induction commands generalizing session with
  | nil => exact reachable
  | cons command rest ih => exact ih (reachable.apply command)

/-- Whether a command adds an event, if both ends are there. -/
def Command.addsEvent : Command → Bool
  | .addEvent .. => true
  | _ => false

/-- A command that moves the walk adds no event. -/
theorem Command.addsEvent_of_isMove {command : Command} (moves : command.isMove = true) :
    command.addsEvent = false := by
  cases command with
  | addEvent => contradiction
  | _ => rfl

/-- A command that adds no event leaves the number of events as it is. -/
theorem numEvents_apply (session : Session) {command : Command}
    (adds : command.addsEvent = false) :
    (session.apply command).1.graph.numEvents = session.graph.numEvents := by
  cases moves : command.isMove with
  | true => rw [graph_apply_of_isMove session moves]
  | false =>
    cases command with
    | disableKind | disableTo | disableIf => exact (session.narrows_disableIf _).numEvents_eq
    | addEntity name => rfl
    | addEvent => simp [Command.addsEvent] at adds
    | _ => simp [Command.isMove] at moves

/-- Commands that add no events leave the number of events as it is. -/
theorem numEvents_run (session : Session) {commands : List Command}
    (adds : ∀ command ∈ commands, command.addsEvent = false) :
    (session.run commands).graph.numEvents = session.graph.numEvents := by
  induction commands generalizing session with
  | nil => rfl
  | cons command rest ih =>
    obtain ⟨first, rest⟩ := List.forall_mem_cons.mp adds
    exact (ih _ rest).trans (session.numEvents_apply first)

/-- The current entity is the target of the current event, or the root when there is none. -/
theorem currentEntity_eq (session : Session) :
    session.currentEntity = (session.currentEvent?.map session.graph.target).getD root := by
  rw [currentEntity, Walk.currentEntity, currentEvent?, Walk.currentEvent?]
  cases session.walk.stack with
  | nil => rfl
  | cons top below => cases top <;> rfl

/-- The current event of a session is an event of its graph. -/
theorem Reachable.currentEvent?_lt {session : Session} (reachable : session.Reachable)
    {event : EventId} (current : session.currentEvent? = some event) :
    event < session.graph.numEvents := by
  obtain ⟨past, traced⟩ := reachable.traced
  refine traced.sound.stands.lt_of_mem ?_
  obtain ⟨top, first, entered⟩ := Option.bind_eq_some_iff.mp current
  have inside := List.mem_of_head? first
  cases top with
  | root => simp [Frame.event?] at entered
  | via other => exact Option.some.inj entered ▸ inside

/-- The current entity of a session is an entity of its graph. -/
theorem Reachable.currentEntity_lt {session : Session} (reachable : session.Reachable) :
    session.currentEntity < session.graph.numEntities := by
  obtain ⟨past, traced⟩ := reachable.traced
  rw [currentEntity_eq]
  cases current : session.currentEvent? with
  | none => exact traced.rooted
  | some event => exact traced.wellFormed.target_lt event (reachable.currentEvent?_lt current)

/-- The forward trace of the current entity. -/
def forward (session : Session) : List ForwardLine :=
  session.graph.forward session.currentEntity none

/-- The forward trace of the current entity through the events below a bound. -/
def forwardUpTo (session : Session) (bound : Nat) : List ForwardLine :=
  (session.graph.upTo bound).forward session.currentEntity none

/-- Up to all events, a forward trace is the whole one. -/
theorem forwardUpTo_of_le {session : Session} {bound : Nat}
    (all : session.graph.numEvents ≤ bound) : session.forwardUpTo bound = session.forward := by
  rw [forwardUpTo, Graph.upTo_of_le all, forward]

/-- While the key of a session stays the same, its forward trace changes by added events only. -/
theorem Reachable.forwardUpTo_run {session : Session} (reachable : session.Reachable)
    {commands : List Command} (same : (session.run commands).forwardKey = session.forwardKey) :
    (session.run commands).forwardUpTo session.graph.numEvents = session.forward := by
  have evolves := session.evolves_run commands
  obtain ⟨_, traced⟩ := reachable.traced
  obtain ⟨_, later⟩ := (reachable.run commands).traced
  simp only [forwardKey, ForwardKey.mk.injEq] at same
  obtain ⟨_, event, disabled⟩ := same
  have entity : (session.run commands).currentEntity = session.currentEntity := by
    rw [currentEntity_eq, currentEntity_eq, event]
    cases current : session.currentEvent? with
    | none => rfl
    | some event => exact evolves.target_eq event (reachable.currentEvent?_lt current)
  rw [forwardUpTo, entity]
  exact evolves.forward_eq traced.wellFormed later.wellFormed disabled.symm
    reachable.currentEntity_lt

end Session

/-! ## Sessions served by a cache -/

/-- A session with a cache that serves it. -/
structure Served where
  /-- The session. -/
  session : Session
  /-- The cache. -/
  cache : ForwardCache

namespace Served

/-- What is done to a served session. -/
inductive Use where
  /-- The session is changed, without a word to the cache. -/
  | command (command : Session.Command)
  /-- The cache is asked for the forward trace of the session. -/
  | ask

/-- Do one thing to a served session. -/
def use (served : Served) : Use → Served
  | .command command => { served with session := (served.session.apply command).1 }
  | .ask => { served with cache := served.cache.refresh served.session }

/-- Do several things to a served session. -/
def run (served : Served) (uses : List Use) : Served := uses.foldl use served

/-- What the cache answers when it is asked. -/
def answer (served : Served) : List ForwardLine := (served.use .ask).cache.lines

/-- A session with a cache that was never asked. -/
def start (session : Session) : Served := ⟨session, {}⟩

/-- The commands among what is done. -/
def commands (uses : List Use) : List Session.Command :=
  uses.filterMap fun
    | .command command => some command
    | .ask => none

/-- Uses one after another. -/
theorem run_append (served : Served) (first second : List Use) :
    served.run (first ++ second) = (served.run first).run second :=
  List.foldl_append

/-- Asking the cache does not change the session. -/
theorem session_run (served : Served) (uses : List Use) :
    (served.run uses).session = served.session.run (commands uses) := by
  induction uses generalizing served with
  | nil => rfl
  | cons use rest ih =>
    rw [run, List.foldl_cons, ← run, ih]
    cases use <;> rfl

/-- A cache that was asked has the key of the session. -/
theorem key_use_ask (served : Served) :
    (served.use .ask).cache.key = some served.session.forwardKey := by
  simp only [use, ForwardCache.refresh]
  split
  · assumption
  · rfl

/-- A cache that is not up to date answers with the forward trace. -/
theorem answer_of_key_ne {served : Served}
    (outdated : served.cache.key ≠ some served.session.forwardKey) :
    served.answer = served.session.forward := by
  rw [answer, use, ForwardCache.refresh, if_neg outdated]
  rfl

/-- The request between two lists of uses made the listing that the cache still has after them. -/
structure Made (start : Served) (before rest : List Use) : Prop where
  /-- The request did not find the cache up to date. -/
  renewed : (start.run before).cache.key ≠ some (start.run before).session.forwardKey
  /-- The cache is as the request left it. -/
  kept : (start.run (before ++ .ask :: rest)).cache = ((start.run before).use .ask).cache

/-- A use that leaves the cache as it is leaves it as an earlier request made it. -/
theorem Made.use {start : Served} {before rest : List Use} (made : Made start before rest)
    {last : Use} (same : ((start.run (before ++ .ask :: rest)).use last).cache =
      (start.run (before ++ .ask :: rest)).cache) : Made start before (rest ++ [last]) where
  renewed := made.renewed
  kept := by
    rw [← List.cons_append, ← List.append_assoc, run_append]
    exact same.trans made.kept

/-- A cache has no listing, or one of the requests made it. -/
theorem empty_or_made (session : Session) (uses : List Use) :
    ((start session).run uses).cache.key = none ∨
      ∃ before rest, uses = before ++ .ask :: rest ∧ Made (start session) before rest := by
  induction uses using List.reverseRecOn with
  | nil => exact .inl rfl
  | append_singleton uses last ih =>
    let now := (start session).run uses
    have done : (start session).run (uses ++ [last]) = now.use last := run_append _ uses [last]
    by_cases same : (now.use last).cache = now.cache
    · rcases ih with empty | ⟨before, rest, rfl, made⟩
      · exact .inl (by rw [done, same, empty])
      · exact .inr ⟨before, rest ++ [last], by simp, made.use same⟩
    · cases last with
      | command command => exact absurd rfl same
      | ask =>
        refine .inr ⟨uses, [], rfl, fun current => same ?_, by rw [done]⟩
        exact if_pos current

/-- The next answer of a cache is the listing that a request made, this one or an earlier one. -/
theorem exists_made (session : Session) (uses : List Use) :
    ∃ before rest, uses ++ [.ask] = before ++ .ask :: rest ∧ Made (start session) before rest := by
  rcases empty_or_made session (uses ++ [.ask]) with empty | found
  · rw [run_append] at empty
    have asked := key_use_ask ((start session).run uses)
    exact absurd (asked.symm.trans empty) (by simp)
  · exact found

section

variable {session : Session} {uses before rest : List Use}
  (split : uses ++ [.ask] = before ++ .ask :: rest) (made : Made (start session) before rest)
include split

/-- The session now is what commands made of the session at an earlier request. -/
theorem session_eq_run : ((start session).run uses).session =
    ((start session).run before).session.run (commands (.ask :: rest)) := by
  rw [← session_run, ← run_append, ← split, run_append]
  rfl

include made

/-- The cache is the one that the request made. -/
theorem Made.cache_eq :
    (((start session).run uses).use .ask).cache = (((start session).run before).use .ask).cache := by
  have kept := made.kept
  rw [← split, run_append] at kept
  exact kept

/-- The key of the session is the one it had at the request. -/
theorem Made.forwardKey_eq : ((start session).run before).session.forwardKey =
    ((start session).run uses).session.forwardKey := by
  have current := key_use_ask ((start session).run uses)
  rw [made.cache_eq split, key_use_ask] at current
  exact Option.some.inj current

/-- What is answered is the forward trace of the session as it was at the request. -/
theorem Made.answer_eq : ((start session).run uses).answer =
    ((start session).run before).session.forward := by
  rw [answer, made.cache_eq split, ← answer, answer_of_key_ne made.renewed]

/-- What is answered is the forward trace of the session as it is now, up to the events that it had
at the request. -/
theorem Made.answer_eq_forwardUpTo (reachable : session.Reachable) :
    ((start session).run uses).answer = ((start session).run uses).session.forwardUpTo
      ((start session).run before).session.graph.numEvents := by
  have earlier : ((start session).run before).session.Reachable := by
    rw [session_run]
    exact reachable.run _
  have same := (made.forwardKey_eq split).symm
  rw [session_eq_run split] at same ⊢
  rw [made.answer_eq split, earlier.forwardUpTo_run same]

end

/-- A cache that is asked between commands that add no events answers with the forward trace. -/
theorem answer_of_addsEvent_eq_false {session : Session} (reachable : session.Reachable)
    {uses : List Use} (adds : ∀ command ∈ commands uses, command.addsEvent = false) :
    ((start session).run uses).answer = ((start session).run uses).session.forward := by
  obtain ⟨before, rest, split, made⟩ := exists_made session uses
  have few : ((start session).run uses).session.graph.numEvents =
      ((start session).run before).session.graph.numEvents := by
    have listed := congrArg commands split
    simp only [commands, List.filterMap_append, List.filterMap_cons, List.filterMap_nil,
      List.append_nil] at listed
    rw [session_eq_run split]
    refine Session.numEvents_run _ fun command later => adds command ?_
    rw [commands, listed]
    exact List.mem_append_right _ later
  rw [made.answer_eq_forwardUpTo split reachable, Session.forwardUpTo_of_le (Nat.le_of_eq few)]

/-- However a reachable session and a cache are used, the next answer of the cache is the forward
trace of the session without the events that were added since the listing was made: there is a
request, this one or an earlier one, that made the listing and after which the cache was not
renewed; the key of the session is the same as then, and what is answered is the forward trace of
the session as it was then, which is its forward trace now up to the events that it had then. When
no event was added since, this is the whole forward trace. -/
theorem answer_eq_forward {session : Session} (reachable : session.Reachable) (uses : List Use) :
    let now := (start session).run uses
    ∃ before rest, uses ++ [.ask] = before ++ .ask :: rest ∧ Made (start session) before rest ∧
      let made := (start session).run before
      made.session.forwardKey = now.session.forwardKey ∧
        now.answer = made.session.forward ∧
        now.answer = now.session.forwardUpTo made.session.graph.numEvents ∧
        (made.session.graph.numEvents = now.session.graph.numEvents →
          now.answer = now.session.forward) := by
  intro now
  obtain ⟨before, rest, split, made⟩ := exists_made session uses
  have upTo := made.answer_eq_forwardUpTo split reachable
  refine ⟨before, rest, split, made, made.forwardKey_eq split, made.answer_eq split, upTo,
    fun none => ?_⟩
  exact upTo.trans (Session.forwardUpTo_of_le (Nat.le_of_eq none.symm))

/-- The cache is asked before and after an event is added and goes on answering without the event,
which the forward trace of the session lists. -/
theorem answer_without_addedEvent :
    let session := Session.new "root" "int"
    let uses : List Use := [.command (.addEntity "a"), .ask,
      .command (.addEvent 0 1 .templateInstantiation none)]
    let now := (start session).run uses
    session.Reachable ∧ now.answer = [] ∧ now.session.forward = [⟨1, 0, false⟩] := by
  intro session uses now
  let graph := (Graph.empty.addEntity "root").addEntity "a"
  have before : graph.forward root none = [] := by cbv
  have after : (graph.addEvent 0 1 .templateInstantiation none).forward root none =
      [⟨1, 0, false⟩] := by cbv
  exact ⟨⟨"root", "int", [], rfl⟩, before, after⟩

/-- After the added event has been entered and the step taken back, the cache answers with it. -/
theorem answer_eq_forward_renewed :
    let session := Session.new "root" "int"
    let uses : List Use := [.command (.addEntity "a"), .ask,
      .command (.addEvent 0 1 .templateInstantiation none), .command .step, .ask,
      .command .stepBack]
    let now := (start session).run uses
    session.Reachable ∧ now.answer = [⟨1, 0, false⟩] ∧
      ∃ before rest, uses ++ [.ask] = before ++ .ask :: rest ∧
        now.answer =
          now.session.forwardUpTo ((start session).run before).session.graph.numEvents := by
  intro session uses now
  have reachable : session.Reachable := ⟨"root", "int", [], rfl⟩
  obtain ⟨before, rest, split, _, _, _, upTo, _⟩ := answer_eq_forward reachable uses
  have outdated : now.cache.key ≠ some now.session.forwardKey := by decide
  have graph : now.session.graph =
      (session.graph.addEntity "a").addEvent 0 1 .templateInstantiation none := by decide
  have entity : now.session.currentEntity = root := by decide
  refine ⟨reachable, ?_, before, rest, split, upTo⟩
  rw [answer_of_key_ne outdated, Session.forward, graph, entity]
  cbv

end Served

end Retrace
