import Mathlib.Data.List.Range
import Retrace.Proofs.Coverage
import Retrace.Proofs.Progress
import Retrace.Proofs.Replay

/-!
# Walks in recording order

Where every event leaves the root or the target of an earlier event, a walk reaches all of them
(`Graph.Chained`). Where events are recorded as they nest, and only the event that first enters an
entity has others inside (`Graph.Nested`), it also enters them in the order in which they were
recorded, and its backtrace is made of the events that enclose the one entered
(`Nested.walk_spec`).

The order is that of the loop of a forward trace. When the loop comes to an event, the entities met
are the root and the targets of the earlier events, and what is pending are the later events that
leave an entity met, in recording order (`Nested.forwardLoop_eq`). The backtrace follows from the
order: the event that first enters an entity becomes its parent, and an entity has one lineage.
-/
namespace Retrace

/-- Every event of a graph is enabled and leaves the root or the target of an earlier event, and
every other entity is the target of an event. -/
structure Graph.Chained (graph : Graph) : Prop where
  /-- The lists of the entities are those of the events. -/
  wellFormed : graph.WellFormed
  /-- There is a root. -/
  rooted : root < graph.numEntities
  /-- Every event can be entered. -/
  enabled : ∀ event < graph.numEvents, graph.isEnabled event = true
  /-- No event comes before the one that enters its source. -/
  source_spec : ∀ event < graph.numEvents, graph.source event = root ∨
    ∃ earlier < event, graph.target earlier = graph.source event
  /-- Every entity is entered. -/
  entered : ∀ entity < graph.numEntities, entity ≠ root →
    ∃ event < graph.numEvents, graph.target event = entity

namespace Graph.Chained

variable {graph : Graph} (chained : graph.Chained)
include chained

/-- Every event is listed below the root. -/
theorem mem_preorder {event : EventId} (inside : event < graph.numEvents) :
    event ∈ (graph.preorder root none).map ForwardLine.event := by
  induction event using Nat.strongRecOn with
  | ind event ih =>
    have enabled := chained.enabled event inside
    refine mem_preorder_of_source chained.wellFormed chained.rooted enabled ?_
    rcases chained.source_spec event inside with origin | ⟨earlier, before, origin⟩
    · exact .inl origin
    · exact .inr (origin ▸ List.mem_map_of_mem (ih earlier before (before.trans inside)))

/-- The events listed below the root are all of them, each once. -/
theorem preorder_perm :
    ((graph.preorder root none).map ForwardLine.event).Perm (List.range graph.numEvents) := by
  have distinct := nodup_preorder chained.wellFormed chained.rooted
  refine (List.perm_ext_iff_of_nodup distinct List.nodup_range).mpr fun event => ?_
  rw [List.mem_range]
  exact ⟨fun listed => lt_of_isEnabled (reaches_of_mem_preorder chained.wellFormed listed).1,
    chained.mem_preorder⟩

/-- The preorder has a line for each event. -/
theorem length_preorder : (graph.preorder root none).length = graph.numEvents := by
  simpa using chained.preorder_perm.length_eq

end Graph.Chained

/-- A walk from its start through a graph whose events chain up enters every event once and
discovers every entity, in one step for each event and one more. -/
theorem Session.Reachable.chained_spec {session : Session} (reachable : session.Reachable)
    (start : session.isAtStart = true) (chained : session.graph.Chained) :
    let last := step^[session.graph.numEvents + 1] session
    session.EndsIn (session.graph.numEvents + 1) ∧
      last.entered.Perm (List.range session.graph.numEvents) ∧
      ∀ entity < session.graph.numEntities, last.walk.isDiscovered entity = true := by
  intro last
  have replays := reachable.replays_preorder start
  obtain ⟨past, traced⟩ := reachable.traced
  have walk := traced.walk_eq_start start
  have unmoved : session.log = [] := by simpa [isAtStart] using start
  have ends := replays.endsIn
  obtain ⟨events, discovered, -⟩ := replays.last
  rw [chained.length_preorder] at ends events discovered
  refine ⟨ends, ?_, fun entity inside => ?_⟩
  · rw [events, entered, unmoved]
    exact chained.preorder_perm
  · rw [discovered, walk, Walk.isDiscovered_start chained.rooted]
    by_cases first : entity = root
    · exact .inl first
    · obtain ⟨event, bound, target⟩ := chained.entered entity inside first
      exact .inr (List.mem_map.mpr ⟨event, chained.mem_preorder bound, target⟩)

/-- The events of a graph are recorded as they nest: `outer` gives the events that enclose an event,
the innermost first. Only an event that is the first to enter its target has others inside. -/
structure Graph.Nested (graph : Graph) (outer : EventId → List EventId) : Prop
    extends graph.Chained where
  /-- An event leaves the target of the event that encloses it, or the root. -/
  source_eq : ∀ event < graph.numEvents,
    graph.source event = ((outer event).head?.map graph.target).getD root
  /-- An event comes after those that enclose it. -/
  lt_of_mem : ∀ event < graph.numEvents, ∀ other ∈ outer event, other < event
  /-- What encloses an event and is not innermost encloses the innermost. -/
  outer_eq : ∀ event < graph.numEvents, ∀ inner rest, outer event = inner :: rest →
    outer inner = rest
  /-- What encloses an event encloses what is recorded between the two. -/
  between : ∀ event < graph.numEvents, ∀ other ∈ outer event, ∀ middle, other < middle →
    middle < event → other ∈ outer middle
  /-- What encloses an event is the first to enter its target. -/
  first : ∀ event < graph.numEvents, ∀ other ∈ outer event, ∀ earlier < other,
    graph.target earlier ≠ graph.target other
  /-- No event enters the root. -/
  target_ne : ∀ event < graph.numEvents, graph.target event ≠ root

namespace Graph.Nested

variable {graph : Graph} {outer : EventId → List EventId} (nested : graph.Nested outer)
include nested

/-- The innermost event that encloses another comes last of those that do. -/
theorem le_of_mem {event inner other : EventId} {rest : List EventId}
    (inside : event < graph.numEvents) (enclosed : outer event = inner :: rest)
    (listed : other ∈ outer event) : other ≤ inner := by
  rw [enclosed] at listed
  rcases List.mem_cons.mp listed with rfl | below
  · exact Nat.le_refl _
  · have before : inner < event := nested.lt_of_mem event inside inner (by simp [enclosed])
    have below : other ∈ outer inner := by
      rwa [nested.outer_eq event inside inner rest enclosed]
    exact (nested.lt_of_mem inner (before.trans inside) other below).le

/-- Between an event and one inside it, no event leaves the root or an entity that was entered
before. -/
theorem source_between {entered middle event : EventId} (inside : event < graph.numEvents)
    (encloses : entered ∈ outer event) (after : entered < middle) (before : middle < event) :
    graph.source middle ≠ root ∧
      ∀ earlier < entered, graph.target earlier ≠ graph.source middle := by
  have bound := before.trans inside
  have encloses := nested.between event inside entered encloses middle after before
  have origin := nested.source_eq middle bound
  cases enclosed : outer middle with
  | nil => simp [enclosed] at encloses
  | cons inner rest =>
    rw [enclosed, List.head?_cons, Option.map_some, Option.getD_some] at origin
    have listed : inner ∈ outer middle := by simp [enclosed]
    have latest := nested.le_of_mem bound enclosed encloses
    rw [origin]
    refine ⟨nested.target_ne inner ((nested.lt_of_mem middle bound inner listed).trans bound),
      fun earlier less => ?_⟩
    exact nested.first middle bound inner listed earlier (less.trans_le latest)

/-- An event that leaves the target of another, which is the first to enter it, is inside it. -/
theorem mem_outer {entered event : EventId} (inside : event < graph.numEvents)
    (fresh : ∀ earlier < entered, graph.target earlier ≠ graph.target entered)
    (bound : entered < graph.numEvents)
    (leaves : graph.source event = graph.target entered) : entered ∈ outer event := by
  have origin := nested.source_eq event inside
  cases enclosed : outer event with
  | nil =>
    rw [enclosed, leaves] at origin
    exact absurd origin (nested.target_ne entered bound)
  | cons inner rest =>
    rw [enclosed, leaves] at origin
    have listed : inner ∈ outer event := by simp [enclosed]
    have unique := nested.first event inside inner listed entered
    have same : inner = entered := by
      rcases Nat.lt_trichotomy inner entered with less | same | more
      · exact absurd origin.symm (fresh inner less)
      · exact same
      · exact absurd origin (unique more)
    rw [same]
    exact List.mem_cons_self

end Graph.Nested

/-! ## The loop of a forward trace -/

namespace Graph

/-- The events from number `next` on that leave an entity met, in recording order. -/
def waiting (graph : Graph) (met : Array Bool) (next : Nat) : List EventId :=
  (List.range' next (graph.numEvents - next)).filter fun event => isMet met (graph.source event)

/-- An event waits when it is not passed and leaves an entity that is met. -/
theorem mem_waiting {graph : Graph} {met : Array Bool} {next event : Nat} :
    event ∈ graph.waiting met next ↔
      next ≤ event ∧ event < graph.numEvents ∧ isMet met (graph.source event) = true := by
  rw [waiting, List.mem_filter, List.mem_range'_1]
  have bounds : next ≤ event ∧ event < next + (graph.numEvents - next) ↔
      next ≤ event ∧ event < graph.numEvents := by omega
  rw [bounds, and_assoc]

/-- Waiting events are listed in increasing order. -/
theorem waiting_increasing (graph : Graph) (met : Array Bool) (next : Nat) :
    (graph.waiting met next).Pairwise (· < ·) :=
  List.Pairwise.filter _ List.pairwise_lt_range'

/-- The events from `next` on are `next` and the later ones. -/
theorem range'_numEvents {graph : Graph} {next : Nat} (more : next < graph.numEvents) :
    List.range' next (graph.numEvents - next) =
      next :: List.range' (next + 1) (graph.numEvents - (next + 1)) := by
  rw [← List.range'_succ]
  congr 1
  omega

/-- The loop of a forward trace has come to the event `next`: the entities met are the root and the
targets of the earlier events, and what is pending are the events that leave them. -/
structure Arrives (graph : Graph) (met : Array Bool) (pending : List (Nat × EventId))
    (next : Nat) : Prop where
  /-- There are as many events. -/
  le : next ≤ graph.numEvents
  /-- What is met is the root or was entered. -/
  met_iff : ∀ entity < graph.numEntities, isMet met entity = true ↔
    entity = root ∨ ∃ event < next, graph.target event = entity
  /-- What leaves it is pending. -/
  pending_eq : pending.map Prod.snd = graph.waiting met next

namespace Nested

variable {graph : Graph} {outer : EventId → List EventId} (nested : graph.Nested outer)
  {met : Array Bool} {pending : List (Nat × EventId)} {next : Nat}
include nested

/-- The next event leaves an entity met, so it is the first pending. -/
theorem waiting_eq_cons (arrives : graph.Arrives met pending next)
    (more : next < graph.numEvents) :
    graph.waiting met next = next :: graph.waiting met (next + 1) := by
  have known : isMet met (graph.source next) = true :=
    (arrives.met_iff _ (nested.wellFormed.source_lt next more)).mpr (nested.source_spec next more)
  rw [waiting, range'_numEvents more, List.filter_cons, if_pos known, waiting]

/-- The loop ends when no event is left. -/
theorem eq_of_arrives_nil (arrives : graph.Arrives met [] next) : next = graph.numEvents := by
  refine Nat.le_antisymm arrives.le (Nat.le_of_not_lt fun more => ?_)
  have listed := arrives.pending_eq
  rw [nested.waiting_eq_cons arrives more] at listed
  contradiction

/-- The loop goes on with the next event. -/
theorem of_arrives_cons {depth : Nat} {event : EventId}
    (arrives : graph.Arrives met ((depth, event) :: pending) next) :
    event = next ∧ next < graph.numEvents ∧
      pending.map Prod.snd = graph.waiting met (next + 1) := by
  have listed := arrives.pending_eq
  have more : next < graph.numEvents := by
    by_contra done
    rw [waiting, Nat.sub_eq_zero_of_le (Nat.le_of_not_lt done)] at listed
    contradiction
  rw [nested.waiting_eq_cons arrives more] at listed
  obtain ⟨same, rest⟩ := List.cons.inj listed
  exact ⟨same, more, rest⟩

/-- After an event into an entity that was met, nothing new is pending. -/
theorem arrives_known {depth : Nat} {event : EventId}
    (arrives : graph.Arrives met ((depth, event) :: pending) next)
    (known : isMet met (graph.target event) = true) : graph.Arrives met pending (next + 1) := by
  obtain ⟨rfl, more, rest⟩ := nested.of_arrives_cons arrives
  refine ⟨more, fun entity inside => ?_, rest⟩
  rw [arrives.met_iff entity inside]
  constructor
  · rintro (first | ⟨earlier, before, target⟩)
    · exact .inl first
    · exact .inr ⟨earlier, Nat.lt_succ_of_lt before, target⟩
  · rintro (first | ⟨earlier, before, target⟩)
    · exact .inl first
    · rcases Nat.lt_succ_iff_lt_or_eq.mp before with before | rfl
      · exact .inr ⟨earlier, before, target⟩
      · exact target ▸ (arrives.met_iff _ (nested.wellFormed.target_lt earlier more)).mp known

/-- An entity that is not met was not entered. -/
theorem fresh_of_unmet {event : EventId} (arrives : graph.Arrives met pending event)
    (more : event < graph.numEvents) (unknown : isMet met (graph.target event) = false) :
    ∀ earlier < event, graph.target earlier ≠ graph.target event := by
  intro earlier before same
  have known := (arrives.met_iff _ (nested.wellFormed.target_lt event more)).mpr
    (.inr ⟨earlier, before, same⟩)
  rw [unknown] at known
  contradiction

/-- What leaves an entity comes after the first event into it. -/
theorem lt_of_source {entered event : EventId} (inside : event < graph.numEvents)
    (bound : entered < graph.numEvents)
    (fresh : ∀ earlier < entered, graph.target earlier ≠ graph.target entered)
    (leaves : graph.source event = graph.target entered) : entered < event := by
  rcases nested.source_spec event inside with first | ⟨earlier, before, origin⟩
  · exact absurd (leaves.symm.trans first) (nested.target_ne entered bound)
  · by_contra late
    exact fresh earlier (before.trans_le (Nat.le_of_not_lt late)) (origin.trans leaves)

/-- After an event into an entity that was not met, the events that leave the entity are pending,
and they come before the others: what waits leaves an entity that was met, so that it cannot stand
between the event and one inside it. -/
theorem arrives_new {depth : Nat} {event : EventId}
    (arrives : graph.Arrives met ((depth, event) :: pending) next)
    (unknown : isMet met (graph.target event) = false) :
    graph.Arrives (met.setIfInBounds (graph.target event) true)
      ((graph.enabledOutgoing (graph.target event)).map (depth + 1, ·) ++ pending) (next + 1) := by
  obtain ⟨rfl, more, rest⟩ := nested.of_arrives_cons arrives
  have meets := isMet_setIfInBounds unknown
  have fresh := nested.fresh_of_unmet arrives more unknown
  refine ⟨more, fun entity inside => ?_, ?_⟩
  · rw [meets, Bool.or_eq_true, arrives.met_iff entity inside, beq_iff_eq, or_assoc]
    refine or_congr_right ⟨?_, ?_⟩
    · rintro (⟨earlier, before, target⟩ | rfl)
      · exact ⟨earlier, Nat.lt_succ_of_lt before, target⟩
      · exact ⟨event, Nat.lt_succ_self event, rfl⟩
    · rintro ⟨earlier, before, target⟩
      rcases Nat.lt_succ_iff_lt_or_eq.mp before with before | rfl
      · exact .inl ⟨earlier, before, target⟩
      · exact .inr target.symm
  · rw [List.map_append, map_snd_pending, rest]
    have ordered : (graph.enabledOutgoing (graph.target event) ++
        graph.waiting met (event + 1)).Pairwise (· < ·) := by
      refine List.pairwise_append.mpr ⟨nested.wellFormed.enabledOutgoing_increasing _,
        graph.waiting_increasing _ _, fun below leaves other waits => ?_⟩
      obtain ⟨enabled, origin⟩ := nested.wellFormed.mem_enabledOutgoing.mp leaves
      obtain ⟨after, inside, known⟩ := mem_waiting.mp waits
      have bound := lt_of_isEnabled enabled
      refine Nat.lt_of_not_le fun early => ?_
      rcases Nat.lt_or_eq_of_le early with early | rfl
      · obtain ⟨noRoot, new⟩ := nested.source_between bound
          (nested.mem_outer bound fresh more origin) after early
        rcases (arrives.met_iff _ (nested.wellFormed.source_lt other inside)).mp known with
          first | ⟨earlier, before, target⟩
        · exact noRoot first
        · exact new earlier before target
      · rw [origin, unknown] at known
        contradiction
    refine ordered.eq_of_mem_iff (graph.waiting_increasing _ _) fun other => ?_
    rw [List.mem_append, nested.wellFormed.mem_enabledOutgoing, mem_waiting, mem_waiting, meets,
      Bool.or_eq_true, beq_iff_eq]
    constructor
    · rintro (⟨enabled, origin⟩ | ⟨after, inside, known⟩)
      · have inside := lt_of_isEnabled enabled
        exact ⟨nested.lt_of_source inside more fresh origin, inside, .inr origin⟩
      · exact ⟨after, inside, .inl known⟩
    · rintro ⟨after, inside, known | origin⟩
      · exact .inr ⟨after, inside, known⟩
      · exact .inl ⟨nested.enabled other inside, origin⟩

/-- The loop lists the events in recording order. -/
theorem forwardLoop_eq (arrives : graph.Arrives met pending next) :
    (graph.forwardLoop none met pending).map ForwardLine.event =
      List.range' next (graph.numEvents - next) := by
  fun_induction forwardLoop graph none met pending generalizing next
  case case1 met =>
    rw [nested.eq_of_arrives_nil arrives, Nat.sub_self]
    rfl
  case case2 met depth event pending target known ih =>
    obtain ⟨rfl, more, -⟩ := nested.of_arrives_cons arrives
    rw [List.map_cons, ih (nested.arrives_known arrives known), range'_numEvents more]
  case case3 cut _ => simp at cut
  case case4 met depth event pending target new going ih =>
    obtain ⟨rfl, more, -⟩ := nested.of_arrives_cons arrives
    have unknown : isMet met target = false := Bool.eq_false_iff.mpr new
    rw [List.map_cons, ih (nested.arrives_new arrives unknown), range'_numEvents more]

/-- At its start, the loop has come to the first event. -/
theorem arrives_start :
    graph.Arrives ((Array.replicate graph.numEntities false).setIfInBounds root true)
      ((graph.enabledOutgoing root).map (1, ·)) 0 := by
  have met {entity : EntityId} (inside : entity < graph.numEntities) :=
    isMet_start nested.rooted inside
  refine ⟨Nat.zero_le _, fun entity inside => by simp [met inside], ?_⟩
  rw [map_snd_pending]
  refine (nested.wellFormed.enabledOutgoing_increasing root).eq_of_mem_iff
    (graph.waiting_increasing _ 0) fun event => ?_
  rw [nested.wellFormed.mem_enabledOutgoing, mem_waiting]
  constructor
  · rintro ⟨enabled, origin⟩
    have inside := lt_of_isEnabled enabled
    refine ⟨Nat.zero_le _, inside, ?_⟩
    rw [met (nested.wellFormed.source_lt event inside), origin, beq_self_eq_true]
  · rintro ⟨-, inside, known⟩
    rw [met (nested.wellFormed.source_lt event inside), beq_iff_eq] at known
    exact ⟨nested.enabled event inside, known⟩

/-- The events below the root are listed in recording order. -/
theorem preorder_eq :
    (graph.preorder root none).map ForwardLine.event = List.range graph.numEvents := by
  rw [← forward_eq_preorder, forward, nested.forwardLoop_eq nested.arrives_start,
    List.range_eq_range', Nat.sub_zero]

end Nested

end Graph

/-! ## The walk -/

namespace Session

variable {session : Session} {outer : EventId → List EventId} (reachable : session.Reachable)
  (start : session.isAtStart = true) (nested : session.graph.Nested outer)
include reachable start nested

/-- Each step enters the next event. -/
theorem enters_next {event : EventId} (inside : event < session.graph.numEvents) :
    ∃ line, line.event = event ∧
      Enters (step^[event] session) (step^[event + 1] session) line := by
  have listed := nested.preorder_eq
  have bound : event < (session.graph.preorder root none).length := by
    rwa [nested.length_preorder]
  refine ⟨_, ?_, (reachable.replays_preorder start).getElem bound⟩
  have place := congrArg (·[event]?) listed
  simpa [bound, inside] using place

/-- After some steps, the root and the targets of the events entered are discovered. -/
theorem isDiscovered_iterate {count : Nat} (few : count ≤ session.graph.numEvents)
    (entity : EntityId) : (step^[count] session).walk.isDiscovered entity = true ↔
      entity = root ∨ ∃ event < count, session.graph.target event = entity := by
  induction count with
  | zero =>
    obtain ⟨past, traced⟩ := reachable.traced
    rw [Function.iterate_zero_apply, traced.walk_eq_start start,
      Walk.isDiscovered_start nested.rooted]
    simp
  | succ count ih =>
    obtain ⟨line, same, enters⟩ := enters_next reachable start nested few
    rw [enters.discovered_iff, ih (Nat.le_of_succ_le few), same, graph_iterate_step, or_assoc]
    refine or_congr_right ⟨?_, ?_⟩
    · rintro (⟨earlier, before, target⟩ | rfl)
      · exact ⟨earlier, Nat.lt_succ_of_lt before, target⟩
      · exact ⟨count, Nat.lt_succ_self count, rfl⟩
    · rintro ⟨earlier, before, target⟩
      rcases Nat.lt_succ_iff_lt_or_eq.mp before with before | rfl
      · exact .inl ⟨earlier, before, target⟩
      · exact .inr target.symm

/-- The first event into an entity becomes its parent and stays it. -/
theorem parentOf_iterate {count : Nat} (few : count ≤ session.graph.numEvents) {event : EventId}
    (entered : event < count)
    (fresh : ∀ earlier < event, session.graph.target earlier ≠ session.graph.target event) :
    (step^[count] session).walk.parentOf (session.graph.target event) = some event := by
  induction count with
  | zero => contradiction
  | succ count ih =>
    have known := isDiscovered_iterate reachable start nested (Nat.le_of_succ_le few)
    obtain ⟨line, same, enters⟩ := enters_next reachable start nested few
    rw [enters.parent_eq, enters.repeated_eq, same, graph_iterate_step]
    rcases Nat.lt_succ_iff_lt_or_eq.mp entered with before | rfl
    · rw [if_neg, ih (Nat.le_of_succ_le few) before]
      rintro ⟨again, unknown⟩
      rw [(known _).mpr (.inr ⟨event, before, again⟩)] at unknown
      contradiction
    · have unknown : (step^[event] session).walk.isDiscovered (session.graph.target event) =
          false := by
        refine Bool.eq_false_iff.mpr fun found => ?_
        rcases (known _).mp found with first | ⟨earlier, before, target⟩
        · exact nested.target_ne event few first
        · exact fresh earlier before target
      rw [if_pos ⟨rfl, unknown⟩]

/-- What encloses an event leads to its source, as soon as the walk has come to the event. -/
theorem lineage_outer {count : Nat} (few : count ≤ session.graph.numEvents) {event : EventId}
    (inside : event < session.graph.numEvents) (reached : event ≤ count) :
    Walk.Lineage session.graph (step^[count] session).walk (session.graph.source event)
      ((outer event).map Frame.via ++ [.root]) := by
  induction event using Nat.strongRecOn with
  | ind event ih =>
    have origin := nested.source_eq event inside
    cases enclosed : outer event with
    | nil =>
      rw [enclosed] at origin
      exact .root origin
    | cons inner rest =>
      rw [enclosed] at origin
      have listed : inner ∈ outer event := by simp [enclosed]
      have before := nested.lt_of_mem event inside inner listed
      have bound := before.trans inside
      have below := ih inner before bound (before.le.trans reached)
      rw [nested.outer_eq event inside inner rest enclosed] at below
      rw [origin]
      refine .via bound rfl ?_ below
      exact parentOf_iterate reachable start nested few (before.trans_le reached)
        (nested.first event inside inner listed)

/-- A walk through nested events enters them in recording order, and its backtrace is made of the
events that enclose the one entered, and that one. -/
theorem nested_spec {event : EventId} (inside : event < session.graph.numEvents) :
    (step^[event + 1] session).currentEvent? = some event ∧
      (step^[event + 1] session).backtrace = (event :: outer event).reverse := by
  obtain ⟨line, same, enters⟩ := enters_next reachable start nested inside
  have current := enters.event_eq
  rw [same] at current
  refine ⟨current, ?_⟩
  obtain ⟨past, traced⟩ := reachable.traced
  obtain ⟨later, traced⟩ := traced.iterate_step (event + 1)
  have sound := traced.sound
  have led := lineage_outer reachable start nested inside inside (Nat.le_succ event)
  have stands := sound.stands
  rw [graph_iterate_step] at stands
  rw [backtrace, Walk.trail_eq]
  rw [currentEvent?, Walk.currentEvent?] at current
  generalize (step^[event + 1] session).walk.stack = stack at stands current
  cases stands with
  | finished => contradiction
  | root => contradiction
  | @via top frames bound known lineage =>
    obtain rfl : top = event := Option.some.inj current
    have below : trailOf ((outer top).map Frame.via ++ [.root]) = outer top := by
      rw [trailOf_append, trailOf_root, trailOf_nil, List.append_nil, trailOf, List.filterMap_map]
      exact List.filterMap_some
    rw [lineage.unique sound.root_parent led, trailOf_via, below]

end Session

end Retrace
