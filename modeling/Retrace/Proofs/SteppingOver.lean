import Retrace.Proofs.Filtering

/-!
# Stepping over

What a session has before it falls into two parts: what it goes through below its top frame
(`Session.below`), and what comes after events that lie lower in the stack. The lines of the first
part are deeper than the session and the first line of the second part is not
(`Traced.depth_iterate`), which is all that a step over looks at; so it stops where the second part
begins, or at the end of the walk. On the way the stack of the session stays below the walk, since
frames are left from the top only and a stack is as long as its depth says (`Traced.stack_step`).

Below the top frame, a session comes to the entities that it can reach from the current one through
enabled events without passing an entity that is discovered already (`mem_below_iff`). This is the
white-path theorem of depth-first search, here for a walk in any position.
-/
namespace Retrace

namespace Graph

/-! ## Depths of listed events -/

/-- What comes after the events of a trail is no deeper than the trail is long. -/
theorem depth_le_of_mem_later {graph : Graph} {trail : List EventId} :
    ∀ item ∈ graph.later trail, item.1 ≤ trail.length := by
  induction trail with
  | nil => simp [later]
  | cons event below ih =>
    intro item listed
    rw [later] at listed
    rcases List.mem_append.mp listed with here | lower
    · obtain ⟨other, _, rfl⟩ := List.mem_map.mp here
      exact Nat.le_refl _
    · exact Nat.le_succ_of_le (ih item lower)

/-- The loop first lists the first pending event, at its depth. -/
theorem exists_forwardLoop_cons (graph : Graph) (bound : Option Nat) (met : Array Bool)
    (depth : Nat) (event : EventId) (pending : List (Nat × EventId)) :
    ∃ repeated lines, graph.forwardLoop bound met ((depth, event) :: pending) =
      ⟨depth, event, repeated⟩ :: lines := by
  rw [forwardLoop]
  split
  · exact ⟨true, _, rfl⟩
  · split
    · exact ⟨false, _, rfl⟩
    · exact ⟨false, _, rfl⟩

end Graph

namespace Session

/-! ## Stacks of steps -/

/-- The frames of an unfinished walk are those of its events and the root frame. -/
theorem Traced.length_stack {session : Session} {past : List Session}
    (traced : Traced session past) (unfinished : session.isFinished = false) :
    session.walk.stack.length = session.depth + 1 := by
  rcases traced.sound.path with ended | ⟨stack, _⟩
  · rw [isFinished, ended] at unfinished
    contradiction
  · rw [stack, depth]
    simp

/-- A step leaves frames from the top of the stack. It ends the walk, or enters an event from the
frames that it keeps, which are as many as it then stands deep. -/
theorem Traced.stack_step {session : Session} {past : List Session}
    (traced : Traced session past) (unfinished : session.isFinished = false) :
    session.step.walk.stack = [] ∨ ∃ event stay, session.step.walk.stack = .via event :: stay ∧
      stay <:+ session.walk.stack ∧ stay ≠ [] ∧ stay.length = session.step.depth := by
  have wellFormed := traced.wellFormed
  have stands := traced.sound.stands
  rw [depth, walk_step unfinished]
  cases agenda : session.walk.agenda session.graph with
  | nil =>
    rw [Walk.advance_of_agenda_eq_nil wellFormed stands agenda]
    exact .inl rfl
  | cons first rest =>
    obtain ⟨popped, stay, descends⟩ := Walk.descends_of_agenda wellFormed stands agenda
    have frames := descends.lineage.eq_map
    refine .inr ⟨first.2, stay, descends.stack_advance, ⟨popped, descends.split.symm⟩, ?_, ?_⟩
    · rw [frames]
      exact List.append_ne_nil_of_right_ne_nil _ (List.cons_ne_nil _ _)
    · have lengths := congrArg List.length frames
      rw [List.length_append, List.length_map, List.length_singleton] at lengths
      rw [descends.trail_advance, List.length_cons]
      exact lengths

/-! ## The two parts of what is ahead -/

/-- What a session goes through below its top frame. -/
def below (session : Session) : List ForwardLine :=
  session.graph.forwardLoop none session.walk.discovered
    ((session.walk.opening session.graph).map (session.depth + 1, ·))

/-- What is before a session begins with what is below its top frame, and goes on with what comes
after the events of its trail. -/
theorem exists_ahead_eq (session : Session) : ∃ met, session.ahead = session.below ++
    session.graph.forwardLoop none met (session.graph.later session.walk.trail) := by
  have listed (pending : List (Nat × EventId)) := session.graph.forwardLoop_append none
    (session.depth + 1) session.walk.discovered (session.walk.opening session.graph) pending
  have alone := listed []
  rw [List.append_nil, Graph.forwardLoop, List.append_nil] at alone
  rw [ahead, Walk.agenda, below, alone]
  exact ⟨_, listed _⟩

/-- What is below the top frame is deeper than the session. -/
theorem lt_depth_of_mem_below {session : Session} (wellFormed : session.graph.WellFormed) :
    ∀ line ∈ session.below, session.depth < line.depth := by
  refine Graph.forwardLoop_line_induction wellFormed
    (motive := fun depth _ => session.depth < depth) (fun item first => ?_)
    fun depth _ _ deeper _ _ _ => Nat.lt_succ_of_lt deeper
  obtain ⟨event, _, rfl⟩ := List.mem_map.mp first
  exact Nat.lt_succ_self session.depth

section

variable {session : Session} {past : List Session} (traced : Traced session past)
  (unfinished : session.isFinished = false)
include traced unfinished

/-- While a session goes through what is below its top frame it is unfinished and deeper than it
was, and the next step makes it as deep as it was at most. -/
theorem Traced.depth_iterate :
    (∀ steps ≤ session.below.length, (Session.step^[steps] session).isFinished = false) ∧
      (∀ steps, 0 < steps → steps ≤ session.below.length →
        session.depth < (Session.step^[steps] session).depth) ∧
      (Session.step^[session.below.length + 1] session).depth ≤ session.depth := by
  obtain ⟨met, split⟩ := session.exists_ahead_eq
  have replays := traced.replays_ahead unfinished
  rw [split] at replays
  refine ⟨fun steps few => replays.isFinished_iterate ?_, fun steps moved few => ?_, ?_⟩
  · rw [List.length_append]
    exact Nat.le_add_right_of_le few
  · obtain ⟨index, rfl⟩ := Nat.exists_eq_add_of_lt moved
    rw [Nat.zero_add] at few ⊢
    have enters := replays.getElem
      (Nat.lt_of_lt_of_le few (List.length_append ▸ Nat.le_add_right ..))
    rw [enters.depth_eq, List.getElem_append_left few]
    exact lt_depth_of_mem_below traced.wellFormed _ (List.getElem_mem few)
  · obtain ⟨onward, _⟩ := replays.along
    rw [Function.iterate_succ_apply']
    cases later : session.graph.later session.walk.trail with
    | nil =>
      rw [later, Graph.forwardLoop] at onward
      obtain ⟨_, walk, _⟩ := onward
      rw [depth, walk]
      exact Nat.zero_le _
    | cons item rest =>
      obtain ⟨repeated, lines, listed⟩ :=
        session.graph.exists_forwardLoop_cons none met item.1 item.2 rest
      rw [later, listed] at onward
      obtain ⟨_, enters, _⟩ := onward
      rw [enters.depth_eq]
      exact Graph.depth_le_of_mem_later item (by rw [later]; exact List.mem_cons_self)

/-- While a session goes through what is below its top frame, its stack stays below the walk: the
frames that a step keeps are at least as many, and both are what is left of one stack. -/
theorem Traced.suffix_iterate {steps : Nat} (few : steps ≤ session.below.length) :
    session.walk.stack <:+ (Session.step^[steps] session).walk.stack := by
  obtain ⟨going, deeper, _⟩ := traced.depth_iterate unfinished
  induction steps with
  | zero => exact List.suffix_rfl
  | succ steps ih =>
    obtain ⟨_, middle⟩ := traced.iterate_step steps
    have before := going steps (by omega)
    have after := going (steps + 1) few
    have deep := deeper (steps + 1) (Nat.succ_pos steps) few
    rw [Function.iterate_succ_apply'] at after deep ⊢
    rcases middle.stack_step before with ended | ⟨event, stay, stack, kept, _, size⟩
    · rw [isFinished, ended] at after
      contradiction
    · have long : session.walk.stack.length ≤ stay.length := by
        rw [traced.length_stack unfinished, size]
        exact deep
      rw [stack]
      exact (List.suffix_of_suffix_length_le (ih (by omega)) kept long).trans
        (List.suffix_cons _ _)

/-- The step after what is below the top frame leaves that frame: it ends the walk, or enters an
event from frames below it. -/
theorem Traced.stack_leave :
    let last := Session.step^[session.below.length + 1] session
    ∃ popped stay, popped ≠ [] ∧ session.walk.stack = popped ++ stay ∧
      (stay = [] ∧ last.walk.stack = [] ∨
        stay ≠ [] ∧ ∃ event, last.walk.stack = .via event :: stay) := by
  intro last
  obtain ⟨going, _, shallow⟩ := traced.depth_iterate unfinished
  have before := going session.below.length (Nat.le_refl _)
  have inside := traced.suffix_iterate unfinished (Nat.le_refl session.below.length)
  have frames := traced.length_stack unfinished
  obtain ⟨_, middle⟩ := traced.iterate_step session.below.length
  rw [Function.iterate_succ_apply'] at shallow
  have lastStep : last = (Session.step^[session.below.length] session).step :=
    Function.iterate_succ_apply' _ _ _
  rw [lastStep]
  rcases middle.stack_step before with ended | ⟨event, stay, stack, kept, some, size⟩
  · refine ⟨session.walk.stack, [], fun empty => ?_, (List.append_nil _).symm, .inl ⟨rfl, ended⟩⟩
    rw [empty] at frames
    contradiction
  · have short : stay.length ≤ session.walk.stack.length := by omega
    obtain ⟨popped, split⟩ := List.suffix_of_suffix_length_le kept inside short
    refine ⟨popped, stay, fun empty => ?_, split.symm, .inr ⟨some, event, stack⟩⟩
    rw [← split, empty, List.nil_append] at frames
    omega

end

/-! ## The loop -/

/-- The loop of a step over makes a step of an unfinished session, and stops or goes on. -/
theorem stepOverLoop_succ {session : Session} (unfinished : session.isFinished = false)
    (limit fuel taken : Nat) : stepOverLoop limit (fuel + 1) taken session =
      if session.step.depth ≤ limit then (session.step, taken + 1)
      else stepOverLoop limit fuel (taken + 1) session.step := by
  rw [stepOverLoop, unfinished, if_neg Bool.false_ne_true]

/-- The loop of a step over stops where the walk is first as deep as the limit at most. -/
theorem stepOverLoop_of_depth_le {session : Session} {limit count : Nat}
    (going : ∀ steps ≤ count, (step^[steps] session).isFinished = false)
    (deeper : ∀ steps, 0 < steps → steps ≤ count → limit < (step^[steps] session).depth)
    (shallow : (step^[count + 1] session).depth ≤ limit) {fuel : Nat} (enough : count < fuel)
    (taken : Nat) :
    stepOverLoop limit fuel taken session = (step^[count + 1] session, taken + (count + 1)) := by
  have unfinished : session.isFinished = false := going 0 (Nat.zero_le count)
  induction count generalizing session fuel taken with
  | zero =>
    obtain ⟨fuel, rfl⟩ := Nat.exists_eq_add_of_lt enough
    rw [stepOverLoop_succ unfinished]
    exact if_pos shallow
  | succ count ih =>
    obtain ⟨fuel, rfl⟩ := Nat.exists_eq_add_of_lt (Nat.zero_lt_of_lt enough)
    have first : ¬ session.step.depth ≤ limit :=
      Nat.not_le.mpr (deeper 1 Nat.one_pos (Nat.le_add_left 1 count))
    have next : session.step.isFinished = false := going 1 (Nat.le_add_left 1 count)
    rw [stepOverLoop_succ unfinished, if_neg first,
      ih (fun steps few => ?_) (fun steps moved few => ?_) shallow (by omega) (taken + 1) next]
    · rw [Function.iterate_succ_apply _ (count + 1), Nat.add_assoc, Nat.add_comm 1]
    · rw [← Function.iterate_succ_apply]
      exact going (steps + 1) (Nat.succ_le_succ few)
    · rw [← Function.iterate_succ_apply]
      exact deeper (steps + 1) (Nat.succ_pos steps) (Nat.succ_le_succ few)

/-! ## New entities -/

/-- Enabled events lead from one entity to another, each to an entity that is not discovered. -/
def ReachesNew (session : Session) : EntityId → EntityId → Prop :=
  Relation.TransGen fun origin destination => ∃ event,
    session.graph.isEnabled event = true ∧ session.graph.source event = origin ∧
      session.graph.target event = destination ∧ session.walk.isDiscovered destination = false

/-- Whether the top frame was entered through an event that did not discover its target. -/
def inLeaf (session : Session) : Bool :=
  session.walk.stack.head?.any (session.walk.isLeaf session.graph)

/-- A leaf has nothing below it. -/
theorem below_of_inLeaf {session : Session} (leaf : session.inLeaf = true) :
    session.below = [] := by
  have closed : session.walk.opening session.graph = [] := by
    cases stack : session.walk.stack with
    | nil => rw [Walk.opening, stack]
    | cons top rest =>
      rw [inLeaf, stack, List.head?_cons, Option.any_some] at leaf
      simp [Walk.opening, stack, leaf]
  rw [below, closed, List.map_nil, Graph.forwardLoop]

/-- Any other frame is open to the enabled events that leave the current entity. -/
theorem opening_eq {session : Session} (unfinished : session.isFinished = false)
    (inner : session.inLeaf = false) : session.walk.opening session.graph =
      session.graph.enabledOutgoing session.currentEntity := by
  cases stack : session.walk.stack with
  | nil =>
    rw [isFinished, stack] at unfinished
    contradiction
  | cons top rest =>
    rw [inLeaf, stack, List.head?_cons, Option.any_some] at inner
    simp [Walk.opening, currentEntity, Walk.currentEntity, stack, inner]

/-- An entity at the end of new ones is new. -/
theorem ReachesNew.isDiscovered_eq {session : Session} {origin entity : EntityId}
    (reaches : session.ReachesNew origin entity) : session.walk.isDiscovered entity = false := by
  obtain ⟨_, _, _, _, _, _, new⟩ := Relation.TransGen.tail'_iff.mp reaches
  exact new

/-- What an enabled event leads to is reached, when it is new and the source of the event is the
origin or is reached. -/
theorem reachesNew_target {session : Session} {origin : EntityId} {event : EventId}
    (enabled : session.graph.isEnabled event = true)
    (source : session.graph.source event = origin ∨
      session.ReachesNew origin (session.graph.source event))
    (new : session.walk.isDiscovered (session.graph.target event) = false) :
    session.ReachesNew origin (session.graph.target event) := by
  rcases source with rfl | reached
  · exact .single ⟨event, enabled, rfl, rfl, new⟩
  · exact reached.tail ⟨event, enabled, rfl, rfl, new⟩

section

variable {session : Session} (wellFormed : session.graph.WellFormed)
  (fits : session.walk.Fits session.graph) (unfinished : session.isFinished = false)
  (inner : session.inLeaf = false)
include wellFormed fits unfinished inner

/-- What is listed below the top frame is what leaves the current entity, and what leaves a new
entity that a listed event leads to. -/
theorem mem_below {event : EventId} (enabled : session.graph.isEnabled event = true) :
    event ∈ session.below.map ForwardLine.event ↔
      session.graph.source event = session.currentEntity ∨
        (session.walk.isDiscovered (session.graph.source event) = false ∧
          session.graph.source event ∈
            (session.below.map ForwardLine.event).map session.graph.target) := by
  have inside := wellFormed.source_lt event (Graph.lt_of_isEnabled enabled)
  rw [below, Graph.mem_forwardLoop_iff wellFormed, Graph.map_snd_pending,
    opening_eq unfinished inner, wellFormed.mem_enabledOutgoing, fits.isMet_discovered inside]
  simp only [enabled, true_and]

/-- Every new entity that is reached is the target of an event listed below the top frame. -/
theorem ReachesNew.mem_targets {entity : EntityId}
    (reaches : session.ReachesNew session.currentEntity entity) :
    entity ∈ (session.below.map ForwardLine.event).map session.graph.target := by
  induction reaches with
  | single led =>
    obtain ⟨event, enabled, origin, rfl, _⟩ := led
    exact List.mem_map_of_mem
      ((mem_below wellFormed fits unfinished inner enabled).mpr (.inl origin))
  | tail before led ih =>
    obtain ⟨event, enabled, rfl, rfl, _⟩ := led
    have new := ReachesNew.isDiscovered_eq before
    exact List.mem_map_of_mem
      ((mem_below wellFormed fits unfinished inner enabled).mpr (.inr ⟨new, ih⟩))

/-- Below the top frame are the enabled events that leave the current entity or a new one that is
reached from it. -/
theorem mem_below_iff (event : EventId) : event ∈ session.below.map ForwardLine.event ↔
    session.graph.isEnabled event = true ∧
      (session.graph.source event = session.currentEntity ∨
        session.ReachesNew session.currentEntity (session.graph.source event)) := by
  constructor
  · refine Graph.forwardLoop_induction wellFormed (motive := fun event =>
      session.graph.isEnabled event = true ∧
        (session.graph.source event = session.currentEntity ∨
          session.ReachesNew session.currentEntity (session.graph.source event)))
      (fun event first => ?_)
      (fun event before own enabled unmet origin => ⟨enabled, .inr ?_⟩) event
    · rw [Graph.map_snd_pending, opening_eq unfinished inner] at first
      obtain ⟨enabled, origin⟩ := wellFormed.mem_enabledOutgoing.mp first
      exact ⟨enabled, .inl origin⟩
    · have inside := wellFormed.source_lt event (Graph.lt_of_isEnabled enabled)
      rw [fits.isMet_discovered inside, origin] at unmet
      rw [origin]
      exact reachesNew_target own.1 own.2 unmet
  · rintro ⟨enabled, start | reached⟩
    · exact (mem_below wellFormed fits unfinished inner enabled).mpr (.inl start)
    · have targets := reached.mem_targets wellFormed fits unfinished inner
      exact (mem_below wellFormed fits unfinished inner enabled).mpr
        (.inr ⟨reached.isDiscovered_eq, targets⟩)

/-- The new entities among the targets of what is below the top frame are those reached. -/
theorem mem_targets_iff (entity : EntityId) :
    (entity ∈ (session.below.map ForwardLine.event).map session.graph.target ∧
      session.walk.isDiscovered entity = false) ↔
        session.ReachesNew session.currentEntity entity := by
  constructor
  · rintro ⟨target, new⟩
    obtain ⟨event, listed, rfl⟩ := List.mem_map.mp target
    obtain ⟨enabled, origin⟩ := (mem_below_iff wellFormed fits unfinished inner event).mp listed
    exact reachesNew_target enabled origin new
  · intro reached
    exact ⟨reached.mem_targets wellFormed fits unfinished inner, reached.isDiscovered_eq⟩

end

/-! ## Steps over -/

/-- What is below the top frame is listed once, and is no more than there are events. -/
theorem Traced.nodup_below {session : Session} {past : List Session}
    (traced : Traced session past) : (session.below.map ForwardLine.event).Nodup ∧
      session.below.length ≤ session.graph.numEvents := by
  obtain ⟨met, split⟩ := session.exists_ahead_eq
  obtain ⟨distinct, few⟩ := traced.nodup_ahead
  rw [split, List.map_append] at distinct
  rw [split, List.length_append] at few
  exact ⟨(List.nodup_append.mp distinct).1, Nat.le_of_add_right_le few⟩

/-- A step over an unfinished session takes some steps and reports how many, whatever the fuel as
long as there is some for every event and one step more. Before the last of them the former stack is
a proper lower part of the stack. After the last, a proper lower part of the former stack is left,
with one event on top unless the walk has ended, so the top frame was left. A leaf is left in one
step. From any other frame, the entities discovered before the last step are those that enabled
events lead to from the current entity through entities that were not discovered, and the events
entered are the enabled ones that leave the current entity or one of these, each once. -/
theorem stepOver_leaves_frame {session : Session} (reachable : session.Reachable)
    (unfinished : session.isFinished = false) :
    let graph := session.graph
    let after (steps : Nat) := step^[steps] session
    ∃ count, session.stepOver = (after (count + 1), count + 1) ∧
      (∀ fuel, graph.numEvents < fuel →
        stepOverLoop session.depth fuel 0 session = session.stepOver) ∧
      (∀ steps, 0 < steps → steps ≤ count → ∃ above, above ≠ [] ∧
        (after steps).walk.stack = above ++ session.walk.stack) ∧
      (∃ popped stay, popped ≠ [] ∧ session.walk.stack = popped ++ stay ∧
        (stay = [] ∧ (after (count + 1)).walk.stack = [] ∨
          stay ≠ [] ∧ ∃ event, (after (count + 1)).walk.stack = .via event :: stay)) ∧
      (session.inLeaf = true → count = 0) ∧
      (session.inLeaf = false →
        (∀ entity, ((after count).walk.isDiscovered entity = true ∧
            session.walk.isDiscovered entity = false) ↔
          session.ReachesNew session.currentEntity entity) ∧
        ∃ inside, (after count).entered = session.entered ++ inside ∧ inside.Nodup ∧
          ∀ event, event ∈ inside ↔ graph.isEnabled event = true ∧
            (graph.source event = session.currentEntity ∨
              session.ReachesNew session.currentEntity (graph.source event))) := by
  intro graph after
  obtain ⟨past, traced⟩ := reachable.traced
  have wellFormed := traced.wellFormed
  have fits := traced.sound.fits
  obtain ⟨going, deeper, shallow⟩ := traced.depth_iterate unfinished
  obtain ⟨distinct, few⟩ := traced.nodup_below
  have loop (fuel : Nat) (enough : graph.numEvents < fuel) :
      stepOverLoop session.depth fuel 0 session =
        (after (session.below.length + 1), session.below.length + 1) := by
    rw [stepOverLoop_of_depth_le going deeper shallow (Nat.lt_of_le_of_lt few enough),
      Nat.zero_add]
  have whole := loop (graph.numEvents + 1) (Nat.lt_succ_self _)
  have replays := traced.replays_ahead unfinished
  obtain ⟨met, split⟩ := session.exists_ahead_eq
  rw [split] at replays
  obtain ⟨_, entered, discovered, _⟩ := replays.along
  refine ⟨session.below.length, whole, fun fuel enough => (loop fuel enough).trans whole.symm,
    fun steps moved inside => ?_, traced.stack_leave unfinished,
    fun leaf => by rw [below_of_inLeaf leaf]; rfl, fun inner => ⟨fun entity => ?_, ?_⟩⟩
  · obtain ⟨above, stack⟩ := traced.suffix_iterate unfinished inside
    refine ⟨above, fun empty => ?_, stack.symm⟩
    obtain ⟨_, middle⟩ := traced.iterate_step steps
    have longer := deeper steps moved inside
    have lengths := middle.length_stack (going steps inside)
    rw [← stack, empty, List.nil_append, traced.length_stack unfinished] at lengths
    omega
  · rw [discovered, ← mem_targets_iff wellFormed fits unfinished inner]
    refine and_congr_left fun new => ?_
    rw [new]
    simp
  · exact ⟨_, entered, distinct, mem_below_iff wellFormed fits unfinished inner⟩

/-- A step over goes around a cycle, past an entity that was discovered before and a disabled event,
and leaves the frame for the event after it. -/
theorem stepOver_leaves_frame_cyclic :
    let commands : List Command :=
      [.addEntity "a", .addEntity "b", .addEntity "c", .addEvent 0 3 .memoization none,
        .addEvent 0 1 .templateInstantiation none, .addEvent 1 2 .templateInstantiation none,
        .addEvent 2 1 .memoization none, .addEvent 2 3 .memoization none,
        .addEvent 1 1 .defaultTemplateArgumentInstantiation none,
        .addEvent 0 2 .memoization none, .stepN 2,
        .disableKind .defaultTemplateArgumentInstantiation]
    let session := (Session.new "root" "int").run commands
    session.Reachable ∧ session.isFinished = false ∧
      session.stepOver = (step^[4] session, 4) ∧
      session.ReachesNew 1 2 ∧ ¬ session.ReachesNew 1 3 ∧
      (step^[4] session).walk.stack = [.via 6, .root] := by
  intro commands session
  have reachable : session.Reachable := ⟨"root", "int", commands, rfl⟩
  have unfinished : session.isFinished = false := by decide
  obtain ⟨count, whole, _, _, _, _, inner⟩ := stepOver_leaves_frame reachable unfinished
  have steps : session.stepOver.2 = 4 := by decide
  obtain rfl : count = 3 := by
    rw [whole] at steps
    exact Nat.succ.inj steps
  obtain ⟨discovered, _⟩ := inner (by decide)
  have current : session.currentEntity = 1 := by decide
  rw [current] at discovered
  refine ⟨reachable, unfinished, whole, (discovered 2).mp (by decide), fun reached => ?_, by decide⟩
  have new := ((discovered 3).mpr reached).2
  revert new
  decide

end Session

end Retrace
