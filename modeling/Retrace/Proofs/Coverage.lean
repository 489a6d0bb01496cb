import Mathlib.Data.Set.Card
import Mathlib.Logic.Relation
import Retrace.Proofs.Coherence
import Retrace.Proofs.Preorder

/-!
# Coverage of walks

A walk from its start to its end enters every enabled event that can be reached from the root, each
once, and no other. That is shown of the listing that the walk goes through: what the loop of a
forward trace lists of some pending events are these events and the enabled ones that leave an
entity met on the way (`Graph.mem_forwardLoop_iff`), each once (`Graph.nodup_forwardLoop`). Since
what leaves an entity met on the way is listed too, the entities met are closed under enabled
events.
-/
namespace Retrace.Graph

/-! ## Events of a listing -/

/-- Meeting an entity meets nothing else. -/
theorem isMet_setIfInBounds {met : Array Bool} {entity : EntityId}
    (new : isMet met entity = false) (other : EntityId) :
    isMet (met.setIfInBounds entity true) other = (isMet met other || other == entity) := by
  have inside : entity < met.size := by
    by_contra outside
    simp [isMet, Array.getElem?_eq_none (Nat.le_of_not_lt outside)] at new
  by_cases same : other = entity
  · subst same
    simp [isMet, inside]
  · simp [isMet, Ne.symm same, same]

/-- The events pending at one depth are the events given. -/
@[simp] theorem map_snd_pending (depth : Nat) (events : List EventId) :
    (events.map (depth, ·)).map Prod.snd = events := by
  simp [Function.comp_def]

section

variable {graph : Graph} (wellFormed : graph.WellFormed) {met : Array Bool}
  {pending : List (Nat × EventId)}
include wellFormed

/-- The loop lists the pending events, and the enabled events that leave an entity which was not met
before and is the target of a listed event above the bound. -/
theorem mem_boundedLoop_iff (bound : Option Nat) (event : EventId) :
    event ∈ (graph.forwardLoop bound met pending).map ForwardLine.event ↔
      event ∈ pending.map Prod.snd ∨
        (graph.isEnabled event = true ∧ isMet met (graph.source event) = false ∧
          ∃ line ∈ graph.forwardLoop bound met pending, bound.any (· ≤ line.depth) = false ∧
            graph.target line.event = graph.source event) := by
  fun_induction forwardLoop graph bound met pending
  case case1 => simp
  case case2 met depth entered pending target known ih =>
    have other (new : isMet met (graph.source event) = false) : target ≠ graph.source event := by
      intro same
      rw [← same, known] at new
      contradiction
    rw [List.map_cons, List.mem_cons, List.exists_mem_cons_iff, ih]
    simp only [List.map_cons, List.mem_cons]
    constructor
    · rintro (first | later | ⟨enabled, unmet, origin⟩)
      · exact .inl (.inl first)
      · exact .inl (.inr later)
      · exact .inr ⟨enabled, unmet, .inr origin⟩
    · rintro ((first | later) | ⟨enabled, unmet, origin⟩)
      · exact .inl first
      · exact .inr (.inl later)
      · exact .inr (.inr ⟨enabled, unmet, origin.resolve_left fun here => other unmet here.2⟩)
  case case3 met depth entered pending target new cut ih =>
    rw [List.map_cons, List.mem_cons, List.exists_mem_cons_iff, ih]
    simp only [List.map_cons, List.mem_cons]
    constructor
    · rintro (first | later | ⟨enabled, unmet, origin⟩)
      · exact .inl (.inl first)
      · exact .inl (.inr later)
      · exact .inr ⟨enabled, unmet, .inr origin⟩
    · rintro ((first | later) | ⟨enabled, unmet, origin⟩)
      · exact .inl first
      · exact .inr (.inl later)
      · refine .inr (.inr ⟨enabled, unmet, origin.resolve_left fun here => ?_⟩)
        exact Bool.false_ne_true (here.1.symm.trans cut)
  case case4 met depth entered pending target new going ih =>
    have unknown : isMet met target = false := Bool.eq_false_iff.mpr new
    have listed : event ∈ ((graph.enabledOutgoing target).map (depth + 1, ·) ++ pending).map
        Prod.snd ↔ (graph.isEnabled event = true ∧ graph.source event = target) ∨
          event ∈ pending.map Prod.snd := by
      rw [List.map_append, map_snd_pending, List.mem_append, wellFormed.mem_enabledOutgoing]
    have meets := isMet_setIfInBounds unknown (graph.source event)
    rw [meets, Bool.or_eq_false_iff, beq_eq_false_iff_ne] at ih
    rw [List.map_cons, List.mem_cons, List.exists_mem_cons_iff, ih, listed]
    simp only [List.map_cons, List.mem_cons]
    constructor
    · rintro (first | (⟨enabled, below⟩ | later) | ⟨enabled, ⟨unmet, _⟩, origin⟩)
      · exact .inl (.inl first)
      · exact .inr ⟨enabled, below ▸ unknown, .inl ⟨Bool.eq_false_iff.mpr going, below.symm⟩⟩
      · exact .inl (.inr later)
      · exact .inr ⟨enabled, unmet, .inr origin⟩
    · rintro ((first | later) | ⟨enabled, unmet, origin⟩)
      · exact .inl first
      · exact .inr (.inl (.inr later))
      · by_cases below : graph.source event = target
        · exact .inr (.inl (.inl ⟨enabled, below⟩))
        · refine .inr (.inr ⟨enabled, ⟨unmet, below⟩, origin.resolve_left fun here => ?_⟩)
          exact below here.2.symm

/-- Without a bound, all listed events lie above it. -/
theorem mem_forwardLoop_iff (event : EventId) :
    event ∈ (graph.forwardLoop none met pending).map ForwardLine.event ↔
      event ∈ pending.map Prod.snd ∨
        (graph.isEnabled event = true ∧ isMet met (graph.source event) = false ∧
          graph.source event ∈
            ((graph.forwardLoop none met pending).map ForwardLine.event).map graph.target) := by
  rw [mem_boundedLoop_iff wellFormed none event]
  simp

/-- The loop lists no event twice when the pending events are distinct and leave entities that were
met. -/
theorem nodup_forwardLoop (distinct : (pending.map Prod.snd).Nodup)
    (leaves : ∀ event ∈ pending.map Prod.snd, isMet met (graph.source event) = true) :
    ((graph.forwardLoop none met pending).map ForwardLine.event).Nodup := by
  fun_induction forwardLoop graph none met pending
  case case1 => exact List.nodup_nil
  case case2 met depth event pending target known ih =>
    obtain ⟨single, distinct⟩ := List.nodup_cons.mp distinct
    obtain ⟨origin, leaves⟩ := List.forall_mem_cons.mp leaves
    refine List.nodup_cons.mpr ⟨fun again => ?_, ih distinct leaves⟩
    rcases (mem_forwardLoop_iff wellFormed event).mp again with later | ⟨_, unmet, _⟩
    · exact single later
    · rw [origin] at unmet
      contradiction
  case case3 cut _ => simp at cut
  case case4 met depth event pending target new going ih =>
    have unknown : isMet met target = false := Bool.eq_false_iff.mpr new
    have meets := isMet_setIfInBounds unknown
    obtain ⟨single, distinct⟩ := List.nodup_cons.mp distinct
    obtain ⟨origin, leaves⟩ := List.forall_mem_cons.mp leaves
    have apart {other : EventId} (below : other ∈ graph.enabledOutgoing target) :
        isMet met (graph.source other) = false := by
      rw [(wellFormed.mem_enabledOutgoing.mp below).2]
      exact unknown
    have events : ((graph.enabledOutgoing target).map (depth + 1, ·) ++ pending).map Prod.snd =
        graph.enabledOutgoing target ++ pending.map Prod.snd := by
      rw [List.map_append, map_snd_pending]
    refine List.nodup_cons.mpr ⟨fun again => ?_, ih ?_ ?_⟩
    · rcases (mem_forwardLoop_iff wellFormed event).mp again with later | ⟨_, unmet, _⟩
      · rw [events] at later
        rcases List.mem_append.mp later with below | later
        · have unmet := apart below
          rw [origin] at unmet
          contradiction
        · exact single later
      · rw [meets, origin] at unmet
        contradiction
    · rw [events]
      refine List.nodup_append.mpr ⟨wellFormed.nodup_enabledOutgoing target, distinct, ?_⟩
      rintro other below _ later rfl
      have unmet := apart below
      rw [leaves other later] at unmet
      contradiction
    · intro other inside
      rw [events] at inside
      rw [meets]
      rcases List.mem_append.mp inside with below | later
      · simp [(wellFormed.mem_enabledOutgoing.mp below).2]
      · rw [leaves other later, Bool.true_or]

/-- Whatever holds of the pending events, and of every enabled event that leaves an entity which was
not met before and is the target of an event of which it holds, holds of all listed events. -/
theorem forwardLoop_induction {motive : EventId → Prop}
    (first : ∀ event ∈ pending.map Prod.snd, motive event)
    (next : ∀ event before, motive before → graph.isEnabled event = true →
      isMet met (graph.source event) = false → graph.source event = graph.target before →
      motive event) :
    ∀ event ∈ (graph.forwardLoop none met pending).map ForwardLine.event, motive event := by
  fun_induction forwardLoop graph none met pending
  case case1 => simp
  case case2 met depth event pending target known ih =>
    obtain ⟨own, later⟩ := List.forall_mem_cons.mp first
    exact List.forall_mem_cons.mpr ⟨own, ih later next⟩
  case case3 cut _ => simp at cut
  case case4 met depth event pending target new going ih =>
    have unknown : isMet met target = false := Bool.eq_false_iff.mpr new
    obtain ⟨own, later⟩ := List.forall_mem_cons.mp first
    refine List.forall_mem_cons.mpr ⟨own, ih (fun other inside => ?_) ?_⟩
    · rw [List.map_append, map_snd_pending] at inside
      rcases List.mem_append.mp inside with below | after
      · obtain ⟨enabled, origin⟩ := wellFormed.mem_enabledOutgoing.mp below
        exact next other event own enabled (origin ▸ unknown) origin
      · exact later other after
    · intro other before holds enabled unmet origin
      rw [isMet_setIfInBounds unknown, Bool.or_eq_false_iff] at unmet
      exact next other before holds enabled unmet.1 origin

/-- Whatever holds of the pending events at their depths, and one level deeper of the enabled events
that leave the target of an event above the bound of which it holds, holds of all lines. -/
theorem forwardLoop_line_induction {bound : Option Nat} {motive : Nat → EventId → Prop}
    (first : ∀ item ∈ pending, motive item.1 item.2)
    (next : ∀ depth event other, motive depth event → bound.any (· ≤ depth) = false →
      graph.isEnabled other = true → graph.source other = graph.target event →
      motive (depth + 1) other) :
    ∀ line ∈ graph.forwardLoop bound met pending, motive line.depth line.event := by
  fun_induction forwardLoop graph bound met pending
  case case1 => simp
  case case2 met depth event pending target known ih =>
    obtain ⟨own, later⟩ := List.forall_mem_cons.mp first
    exact List.forall_mem_cons.mpr ⟨own, ih later⟩
  case case3 met depth event pending target new cut ih =>
    obtain ⟨own, later⟩ := List.forall_mem_cons.mp first
    exact List.forall_mem_cons.mpr ⟨own, ih later⟩
  case case4 met depth event pending target new going ih =>
    obtain ⟨own, later⟩ := List.forall_mem_cons.mp first
    refine List.forall_mem_cons.mpr ⟨own, ih fun item inside => ?_⟩
    rcases List.mem_append.mp inside with below | after
    · obtain ⟨other, leaves, rfl⟩ := List.mem_map.mp below
      obtain ⟨enabled, origin⟩ := wellFormed.mem_enabledOutgoing.mp leaves
      exact next depth event other own (Bool.eq_false_iff.mpr going) enabled origin
    · exact later item after

/-- Whatever holds of the sources of the pending events, and of the target of an enabled event as
soon as it holds of its source, holds of the sources of all listed events; and these are enabled. -/
theorem forall_mem_forwardLoop {property : EntityId → Prop}
    (closed : ∀ event, graph.isEnabled event = true → property (graph.source event) →
      property (graph.target event))
    (holds : ∀ event ∈ pending.map Prod.snd,
      graph.isEnabled event = true ∧ property (graph.source event)) :
    ∀ event ∈ (graph.forwardLoop none met pending).map ForwardLine.event,
      graph.isEnabled event = true ∧ property (graph.source event) := by
  refine forwardLoop_induction wellFormed holds fun event before own enabled _ origin => ?_
  exact ⟨enabled, origin ▸ closed before own.1 own.2⟩

end

/-! ## Reachable entities -/

/-- Enabled events lead from one entity to another. -/
def Reaches (graph : Graph) : EntityId → EntityId → Prop :=
  Relation.ReflTransGen fun origin destination => ∃ event,
    graph.isEnabled event = true ∧ graph.source event = origin ∧ graph.target event = destination

/-- At the start of a listing only its entity was met. -/
theorem isMet_start {numEntities : Nat} {entity other : EntityId} (inside : entity < numEntities)
    (bound : other < numEntities) :
    isMet ((Array.replicate numEntities false).setIfInBounds entity true) other =
      (other == entity) := by
  have unmet {number : EntityId} (bound : number < numEntities) :
      isMet (Array.replicate numEntities false) number = false := by
    simp [isMet, bound]
  rw [isMet_setIfInBounds (unmet inside), unmet bound, Bool.false_or]

section

variable {graph : Graph} (wellFormed : graph.WellFormed) {entity : EntityId}
include wellFormed

/-- The events listed below an entity are enabled and leave an entity reached from it. -/
theorem reaches_of_mem_preorder {event : EventId}
    (listed : event ∈ (graph.preorder entity none).map ForwardLine.event) :
    graph.isEnabled event = true ∧ graph.Reaches entity (graph.source event) := by
  rw [← forward_eq_preorder, forward] at listed
  refine forall_mem_forwardLoop wellFormed (fun event enabled reached => ?_) (fun event first => ?_)
    event listed
  · exact reached.tail ⟨event, enabled, rfl, rfl⟩
  · rw [map_snd_pending] at first
    obtain ⟨enabled, origin⟩ := wellFormed.mem_enabledOutgoing.mp first
    exact ⟨enabled, origin ▸ .refl⟩

/-- No event is listed twice below an entity. -/
theorem nodup_preorder (inside : entity < graph.numEntities) :
    ((graph.preorder entity none).map ForwardLine.event).Nodup := by
  rw [← forward_eq_preorder, forward]
  refine nodup_forwardLoop wellFormed ?_ fun event first => ?_
  · rw [map_snd_pending]
    exact wellFormed.nodup_enabledOutgoing entity
  · rw [map_snd_pending] at first
    obtain ⟨enabled, origin⟩ := wellFormed.mem_enabledOutgoing.mp first
    rw [isMet_start inside (wellFormed.source_lt event (lt_of_isEnabled enabled)), origin,
      beq_self_eq_true]

/-- An enabled event is listed below an entity when it leaves it or the target of a listed event. -/
theorem mem_preorder_of_source (inside : entity < graph.numEntities) {event : EventId}
    (enabled : graph.isEnabled event = true)
    (origin : graph.source event = entity ∨ graph.source event ∈
      ((graph.preorder entity none).map ForwardLine.event).map graph.target) :
    event ∈ (graph.preorder entity none).map ForwardLine.event := by
  rw [← forward_eq_preorder, forward] at origin ⊢
  refine (mem_forwardLoop_iff wellFormed event).mpr ?_
  by_cases first : graph.source event = entity
  · rw [map_snd_pending]
    exact .inl (wellFormed.mem_enabledOutgoing.mpr ⟨enabled, first⟩)
  · refine .inr ⟨enabled, ?_, origin.resolve_left first⟩
    rw [isMet_start inside (wellFormed.source_lt event (lt_of_isEnabled enabled))]
    exact beq_eq_false_iff_ne.mpr first

/-- The entities reached from an entity are itself and the targets of the events listed below it. -/
theorem reaches_iff (inside : entity < graph.numEntities) (other : EntityId) :
    graph.Reaches entity other ↔ other = entity ∨
      other ∈ ((graph.preorder entity none).map ForwardLine.event).map graph.target := by
  constructor
  · intro reached
    induction reached with
    | refl => exact .inl rfl
    | tail _ led ih =>
      obtain ⟨event, enabled, rfl, rfl⟩ := led
      exact .inr (List.mem_map_of_mem (mem_preorder_of_source wellFormed inside enabled ih))
  · rintro (rfl | entered)
    · exact .refl
    · obtain ⟨event, listed, rfl⟩ := List.mem_map.mp entered
      obtain ⟨enabled, reached⟩ := reaches_of_mem_preorder wellFormed listed
      exact reached.tail ⟨event, enabled, rfl, rfl⟩

/-- The events listed below an entity are the enabled ones that leave an entity reached from it. -/
theorem mem_preorder_iff (inside : entity < graph.numEntities) (event : EventId) :
    event ∈ (graph.preorder entity none).map ForwardLine.event ↔
      graph.isEnabled event = true ∧ graph.Reaches entity (graph.source event) := by
  refine ⟨reaches_of_mem_preorder wellFormed, fun ⟨enabled, reached⟩ => ?_⟩
  exact mem_preorder_of_source wellFormed inside enabled
    ((reaches_iff wellFormed inside _).mp reached)

/-- As many events are listed below an entity as leave an entity reached from it and are enabled. -/
theorem ncard_reached (inside : entity < graph.numEntities) :
    Set.ncard {event | graph.isEnabled event = true ∧ graph.Reaches entity (graph.source event)} =
      (graph.preorder entity none).length := by
  have listed : {event | graph.isEnabled event = true ∧
      graph.Reaches entity (graph.source event)} =
        (((graph.preorder entity none).map ForwardLine.event).toFinset : Set EventId) := by
    ext event
    rw [List.coe_toFinset, Set.mem_ofPred_eq, Set.mem_ofPred_eq, mem_preorder_iff wellFormed inside]
  rw [listed, Set.ncard_coe_finset,
    List.toFinset_card_of_nodup (nodup_preorder wellFormed inside), List.length_map]

/-- No more events are listed below an entity than there are. -/
theorem length_preorder_le (inside : entity < graph.numEntities) :
    (graph.preorder entity none).length ≤ graph.numEvents := by
  have distinct := nodup_preorder wellFormed inside
  have within : (graph.preorder entity none).map ForwardLine.event ⊆ List.range graph.numEvents :=
    fun event listed => List.mem_range.mpr
      (lt_of_isEnabled (reaches_of_mem_preorder wellFormed listed).1)
  simpa using (distinct.subperm within).length_le

end

end Retrace.Graph

namespace Retrace.Session

/-! ## Runs to the end -/

/-- Events entered by the moves of the log, in the order in which they were entered. -/
def entered (session : Session) : List EventId :=
  session.log.reverse.filterMap fun move => move.descent.map Descent.event

/-- A move into an event adds the event to those entered. -/
theorem entered_of_log_eq {before after : Session} {move : Move}
    (log : after.log = move :: before.log) :
    after.entered = before.entered ++ (move.descent.map Descent.event).toList := by
  rw [entered, entered, log, List.reverse_cons, List.filterMap_append]
  cases descent : move.descent with
  | none => simp [descent]
  | some descent' => simp [descent]

/-- A move is into the event on top of the stack after it. -/
theorem descent_advance (graph : Graph) (walk : Walk) :
    (walk.advance graph).2.descent.map Descent.event = (walk.advance graph).1.currentEvent? := by
  unfold Walk.advance
  split
  · rfl
  · simp [Walk.currentEvent?, Frame.event?]

/-- A step adds the event it enters to those entered. -/
theorem entered_step {session : Session} (unfinished : session.isFinished = false) :
    session.step.entered = session.entered ++ session.step.currentEvent?.toList := by
  rw [entered_of_log_eq (log_step unfinished), descent_advance, ← walk_step unfinished]
  rfl

/-- What a session has done when it has gone through some of its lines: it has entered their events,
discovered the targets of these, and noted no other events as parents; and it goes on with the other
lines. -/
theorem Replays.along {session : Session} {lines more : List ForwardLine}
    (replays : session.Replays (lines ++ more)) :
    let middle := step^[lines.length] session
    middle.Replays more ∧ middle.entered = session.entered ++ lines.map ForwardLine.event ∧
      (∀ entity, middle.walk.isDiscovered entity = true ↔
        session.walk.isDiscovered entity = true ∨
          entity ∈ (lines.map ForwardLine.event).map session.graph.target) ∧
      ∀ entity event, middle.walk.parentOf entity = some event →
        session.walk.parentOf entity = some event ∨ event ∈ lines.map ForwardLine.event := by
  induction lines generalizing session with
  | nil => exact ⟨replays, (List.append_nil _).symm, by simp, fun _ _ parent => .inl parent⟩
  | cons line lines ih =>
    obtain ⟨_, enters, replays⟩ := replays
    obtain ⟨move, log, descent⟩ := enters.log_eq
    obtain ⟨onward, events, discovered, parents⟩ := ih replays
    rw [List.length_cons, Function.iterate_succ_apply]
    refine ⟨onward, ?_, fun entity => ?_, fun entity event parent => ?_⟩
    · rw [events, entered_of_log_eq log, descent, List.append_assoc]
      rfl
    · rw [discovered, enters.discovered_iff, graph_step, List.map_cons, List.map_cons,
        List.mem_cons, or_assoc]
    · rw [List.map_cons, List.mem_cons]
      rcases parents entity event parent with noted | later
      · rw [enters.parent_eq] at noted
        split at noted
        · exact .inr (.inl (Option.some.inj noted).symm)
        · exact .inl noted
      · exact .inr (.inr later)

/-- What a session has done when it has gone through all of its lines and ended. -/
theorem Replays.last {session : Session} {lines : List ForwardLine}
    (replays : session.Replays lines) :
    let last := step^[lines.length + 1] session
    last.entered = session.entered ++ lines.map ForwardLine.event ∧
      (∀ entity, last.walk.isDiscovered entity = true ↔ session.walk.isDiscovered entity = true ∨
        entity ∈ (lines.map ForwardLine.event).map session.graph.target) ∧
      ∀ entity event, last.walk.parentOf entity = some event →
        session.walk.parentOf entity = some event ∨ event ∈ lines.map ForwardLine.event := by
  rw [← List.append_nil lines] at replays
  obtain ⟨⟨_, walk, move, log, ended⟩, events, discovered, parents⟩ := replays.along
  rw [Function.iterate_succ_apply']
  refine ⟨?_, fun entity => ?_, fun entity event parent => ?_⟩
  · rw [entered_of_log_eq log, ended, Option.map_none, Option.toList_none, List.append_nil, events]
  · rw [← discovered, walk]
    rfl
  · rw [walk] at parent
    exact parents entity event parent

/-- The loop of steps stops where the walk is first finished. -/
theorem stepLoop_of_finished {session : Session} {steps count : Nat}
    (unfinished : ∀ fewer < steps, (step^[fewer] session).isFinished = false)
    (finished : (step^[steps] session).isFinished = true) (enough : steps ≤ count) (taken : Nat) :
    stepLoop count taken session = (step^[steps] session, taken + steps) := by
  induction steps generalizing session count taken with
  | zero =>
    have ended : session.isFinished = true := finished
    cases count with
    | zero => rfl
    | succ count => rw [stepLoop, if_pos ended, Function.iterate_zero_apply, Nat.add_zero]
  | succ steps ih =>
    obtain ⟨count, rfl⟩ := Nat.exists_eq_add_of_le' (Nat.le_trans (Nat.le_add_left 1 steps) enough)
    have going : session.isFinished = false := unfinished 0 (Nat.succ_pos steps)
    rw [stepLoop, going, if_neg Bool.false_ne_true, ih (fun fewer less => ?_) finished (by omega)]
    · rw [Function.iterate_succ_apply, Nat.add_right_comm, Nat.add_assoc]
    · rw [← Function.iterate_succ_apply]
      exact unfinished (fewer + 1) (by omega)

/-- A session whose walk is finished by `count` steps, and not by fewer. -/
structure EndsIn (session : Session) (count : Nat) : Prop where
  /-- The steps finish the walk. -/
  finished : (step^[count] session).isFinished = true
  /-- Fewer steps do not. -/
  unfinished : ∀ fewer < count, (step^[fewer] session).isFinished = false

/-- A session that goes through its lines is finished by one more step, and not before. -/
theorem Replays.endsIn {session : Session} {lines : List ForwardLine}
    (replays : session.Replays lines) : session.EndsIn (lines.length + 1) :=
  ⟨replays.finished.1, fun _ less => replays.isFinished_iterate (Nat.le_of_lt_succ less)⟩

/-- A session is run to the end by the steps that finish its walk, when a word can count them. -/
theorem EndsIn.continueToEnd_eq {session : Session} {count : Nat} (ends : session.EndsIn count)
    (few : count ≤ Text.maxWord) : session.continueToEnd = (step^[count] session, count) := by
  rw [continueToEnd, stepN, stepLoop_of_finished ends.unfinished ends.finished few, Nat.zero_add]

/-- Stepping to the end and noting the events on the way, a session takes the steps that finish its
walk and notes the events that it enters. -/
theorem EndsIn.remainingLoop_spec {session : Session} {count fuel : Nat}
    (ends : session.EndsIn count) (enough : count ≤ fuel) :
    (remainingLoop fuel session).1 = step^[count] session ∧
      (step^[count] session).entered = session.entered ++ (remainingLoop fuel session).2 := by
  induction fuel generalizing session count with
  | zero =>
    obtain rfl := Nat.le_zero.mp enough
    exact ⟨rfl, (List.append_nil _).symm⟩
  | succ fuel ih =>
    rw [remainingLoop]
    cases count with
    | zero =>
      have finished : session.isFinished = true := ends.finished
      rw [if_pos finished]
      exact ⟨rfl, (List.append_nil _).symm⟩
    | succ count =>
      have going : session.isFinished = false := ends.unfinished 0 (Nat.succ_pos count)
      have later : session.step.EndsIn count :=
        ⟨ends.finished, fun fewer less => ends.unfinished (fewer + 1) (Nat.succ_lt_succ less)⟩
      obtain ⟨last, entered⟩ := ih later (Nat.le_of_succ_le_succ enough)
      rw [going, if_neg Bool.false_ne_true, Function.iterate_succ_apply]
      refine ⟨last, ?_⟩
      rw [entered, entered_step going, List.append_assoc]

/-- From its start, a session of fewer events than a word can count runs to the end in one step for
each line of the preorder and one more. -/
theorem Reachable.continueToEnd_eq {session : Session} (reachable : session.Reachable)
    (start : session.isAtStart = true) (countable : session.graph.numEvents < Text.maxWord) :
    let lines := session.graph.preorder root none
    session.continueToEnd = (step^[lines.length + 1] session, lines.length + 1) := by
  intro lines
  obtain ⟨_, traced⟩ := reachable.traced
  have replays := reachable.replays_preorder start
  have few : lines.length + 1 ≤ Text.maxWord :=
    Nat.lt_of_le_of_lt (Graph.length_preorder_le traced.wellFormed traced.rooted) countable
  exact replays.endsIn.continueToEnd_eq few

/-- From its start, a session of fewer events than a word can count runs to the end of its walk. It
takes one step for each enabled event that leaves an entity reached from the root, and one more;
it enters each of these events once, and no other. In the end exactly the entities reached from the
root are discovered, all but the root through an enabled event. -/
theorem continueToEnd_covers {session : Session} (reachable : session.Reachable)
    (start : session.isAtStart = true) (countable : session.graph.numEvents < Text.maxWord) :
    let graph := session.graph
    let last := session.continueToEnd.1
    last.isFinished = true ∧ last.graph = graph ∧
      session.continueToEnd.2 = 1 + Set.ncard {event | graph.isEnabled event = true ∧
        graph.Reaches root (graph.source event)} ∧
      last.entered.Nodup ∧
      (∀ event, event ∈ last.entered ↔
        graph.isEnabled event = true ∧ graph.Reaches root (graph.source event)) ∧
      (∀ entity, last.walk.isDiscovered entity = true ↔ graph.Reaches root entity) ∧
      ∀ entity, entity ≠ root → last.walk.isDiscovered entity = true →
        ∃ event, last.walk.parentOf entity = some event ∧ graph.isEnabled event = true := by
  intro graph last
  obtain ⟨past, traced⟩ := reachable.traced
  have wellFormed : graph.WellFormed := traced.wellFormed
  have inside : root < graph.numEntities := traced.rooted
  have run := reachable.continueToEnd_eq start countable
  have replays := reachable.replays_preorder start
  have walk := traced.walk_eq_start start
  obtain ⟨events, discovered, parents⟩ := replays.last
  have ended : last = step^[(graph.preorder root none).length + 1] session := by
    rw [show last = session.continueToEnd.1 from rfl, run]
  rw [← ended] at events discovered parents
  have unmoved : session.log = [] := by simpa [isAtStart] using start
  have entered : last.entered = (graph.preorder root none).map ForwardLine.event := by
    rw [events, Session.entered, unmoved]
    rfl
  have found (entity : EntityId) :
      last.walk.isDiscovered entity = true ↔ graph.Reaches root entity := by
    rw [discovered, walk, Walk.isDiscovered_start inside, Graph.reaches_iff wellFormed inside]
  have coherent : last.Coherent := by
    obtain ⟨_, traced⟩ := (reachable.apply .continueToEnd).traced
    exact traced.coherent
  refine ⟨ended ▸ replays.finished.1, ?_, ?_, ?_, fun event => ?_, found, ?_⟩
  · rw [ended, graph_iterate_step]
  · rw [Graph.ncard_reached wellFormed inside, run, Nat.add_comm]
  · rw [entered]
    exact Graph.nodup_preorder wellFormed inside
  · rw [entered]
    exact Graph.mem_preorder_iff wellFormed inside event
  · intro entity other known
    obtain ⟨event, parent⟩ := (coherent.discovered_iff entity other).mp known
    refine ⟨event, parent, ?_⟩
    rcases parents entity event parent with noted | listed
    · rw [walk, Walk.parentOf_start] at noted
      contradiction
    · exact (Graph.reaches_of_mem_preorder wellFormed listed).1

/-- A run to the end goes around a cycle and leaves out a disabled event and an event of an entity
that is not reached. -/
theorem continueToEnd_covers_cyclic :
    let commands : List Command :=
      [.addEntity "a", .addEntity "b", .addEvent 0 1 .templateInstantiation none,
        .addEvent 1 0 .templateInstantiation none, .addEvent 2 1 .templateInstantiation none,
        .addEvent 0 2 .memoization none, .disableKind .memoization]
    let session := (Session.new "root" "int").run commands
    session.Reachable ∧ session.isAtStart = true ∧ session.graph.numEvents < Text.maxWord ∧
      session.continueToEnd.1.isFinished = true ∧ session.continueToEnd.1.entered.Nodup ∧
      1 ∈ session.continueToEnd.1.entered ∧ 3 ∉ session.continueToEnd.1.entered := by
  intro commands session
  have reachable : session.Reachable := ⟨"root", "int", commands, rfl⟩
  have start : session.isAtStart = true := by decide
  have countable : session.graph.numEvents < Text.maxWord := by decide
  obtain ⟨finished, _, _, distinct, entered, _, _⟩ :=
    continueToEnd_covers reachable start countable
  refine ⟨reachable, start, countable, finished, distinct, ?_, ?_⟩
  · exact (entered 1).mpr ⟨by decide, .single ⟨0, by decide, by decide, by decide⟩⟩
  · intro again
    have enabled := ((entered 3).mp again).1
    revert enabled
    decide

end Retrace.Session
