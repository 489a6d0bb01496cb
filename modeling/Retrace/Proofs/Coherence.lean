import Mathlib.Data.List.Perm.Subperm
import Retrace.Proofs.Soundness

/-!
# Coherence of sessions

What a sound walk says of its session: the stack is a path from the root to the current entity, the
parents form a tree over the discovered entities, the frames below the top are the branch of the
tree that they lead along, and the start is told from the end. `Session.Coherent` collects these
facts, each read off `Walk.Sound` by a lemma of its own, and `Session.coherent_run` states them
after any commands.
-/
namespace Retrace

/-- Events that lead from one entity to another, the first one first. -/
def Graph.IsPath (graph : Graph) : EntityId → List EventId → EntityId → Prop
  | first, [], last => first = last
  | first, event :: rest, last =>
    event < graph.numEvents ∧ graph.source event = first ∧
      graph.IsPath (graph.target event) rest last

/-- A path goes on with an event that leaves its end. -/
theorem Graph.IsPath.concat {graph : Graph} {first last : EntityId} {events : List EventId}
    {event : EventId} (path : graph.IsPath first events last) (inside : event < graph.numEvents)
    (leaves : graph.source event = last) :
    graph.IsPath first (events ++ [event]) (graph.target event) := by
  induction events generalizing first with
  | nil =>
    have same : first = last := path
    exact ⟨inside, leaves.trans same.symm, rfl⟩
  | cons head rest ih =>
    obtain ⟨bound, source, path⟩ := path
    exact ⟨bound, source, ih path⟩

namespace Walk

variable {graph : Graph} {walk : Walk} {entity : EntityId} {frames : List Frame}

/-- A lineage is the root frame with the frames of its trail on top. -/
theorem Lineage.eq_map (lineage : Lineage graph walk entity frames) :
    frames = (trailOf frames).map .via ++ [.root] := by
  induction lineage with
  | root _ => rfl
  | via _ _ _ _ ih => rw [trailOf_via, List.map_cons, List.cons_append, ← ih]

/-- The trail of a lineage, from below, is a path from the root. -/
theorem Lineage.isPath (lineage : Lineage graph walk entity frames) :
    graph.IsPath Retrace.root (trailOf frames).reverse entity := by
  induction lineage with
  | root isRoot => exact isRoot.symm
  | via inside target _ _ path =>
    rw [trailOf_via, List.reverse_cons, ← target]
    exact path.concat inside rfl

/-- A lineage passes through each entity once, and through discovered ones only. -/
theorem Sound.nodup_targets (sound : Sound graph walk)
    (lineage : Lineage graph walk entity frames) :
    (root :: (trailOf frames).map graph.target).Nodup ∧
      ∀ passed ∈ root :: (trailOf frames).map graph.target, walk.isDiscovered passed = true := by
  induction lineage with
  | root _ => exact ⟨by simp, by simpa using sound.root_discovered⟩
  | @via entity event frames inside target parent lineage ih =>
    obtain ⟨nodup, known⟩ := ih
    have reached := (sound.parent_spec parent).2.2.1
    have rootless : root ≠ entity := by
      rintro rfl
      rw [sound.root_parent] at parent
      contradiction
    have new : entity ∉ (trailOf frames).map graph.target := by
      intro again
      obtain ⟨other, listed, same⟩ := List.mem_map.mp again
      have stacked : .via other ∈ frames := by
        obtain ⟨frame, inside, event⟩ := List.mem_filterMap.mp listed
        cases frame with
        | root => simp [Frame.event?] at event
        | via _ => exact Option.some.inj event ▸ inside
      have otherParent := (lineage.of_mem stacked).2.1
      rw [same, parent] at otherParent
      obtain rfl := Option.some.inj otherParent
      exact lineage.source_ne sound.root_parent stacked rfl
    rw [trailOf_via, List.map_cons, target]
    obtain ⟨apart, nodup⟩ := List.nodup_cons.mp nodup
    obtain ⟨rootKnown, known⟩ := List.forall_mem_cons.mp known
    refine ⟨List.nodup_cons.mpr ⟨?_, List.nodup_cons.mpr ⟨new, nodup⟩⟩,
      List.forall_mem_cons.mpr ⟨rootKnown, List.forall_mem_cons.mpr ⟨reached, known⟩⟩⟩
    exact fun inside => (List.mem_cons.mp inside).elim rootless apart

/-- Distinct discovered entities are at most as many as are discovered. -/
theorem length_le_numDiscovered {entities : List EntityId} (nodup : entities.Nodup)
    (known : ∀ entity ∈ entities, walk.isDiscovered entity = true) :
    entities.length ≤ walk.numDiscovered := by
  have listed : walk.numDiscovered =
      ((List.range walk.discovered.size).filter walk.isDiscovered).length := by
    have marks : walk.discovered.toList =
        (List.range walk.discovered.size).map walk.isDiscovered := by
      refine List.ext_getElem (by simp) fun index inside _ => ?_
      have bound : index < walk.discovered.size := by simpa using inside
      simp [isDiscovered, bound]
    rw [numDiscovered, ← Array.countP_toList, marks, List.countP_map, List.countP_eq_length_filter]
    rfl
  rw [listed]
  refine (nodup.subperm fun entity inside => ?_).length_le
  have found := known entity inside
  have bound : entity < walk.discovered.size := by
    by_contra outside
    simp [isDiscovered, Array.getElem?_eq_none (Nat.le_of_not_lt outside)] at found
  exact List.mem_filter.mpr ⟨List.mem_range.mpr bound, found⟩

/-- A walk that is not finished stands in the root frame with the events of its trail on top, which
are a path from the root to the current entity. -/
theorem Sound.path (sound : Sound graph walk) : walk.stack = [] ∨
    (walk.stack = (walk.trail.reverse.map .via).reverse ++ [.root] ∧
      graph.IsPath Retrace.root walk.trail.reverse (walk.currentEntity graph)) := by
  have stands := sound.stands
  rw [currentEntity, trail_eq]
  revert stands
  generalize walk.stack = stack
  intro stands
  cases stands with
  | finished => exact .inl rfl
  | root => exact .inr ⟨rfl, rfl⟩
  | @via event frames inside _ lineage =>
    right
    rw [trailOf_via, List.map_reverse, List.reverse_reverse, List.map_cons, List.cons_append,
      ← lineage.eq_map, List.reverse_cons]
    exact ⟨rfl, lineage.isPath.concat inside rfl⟩

/-- Any entity but the root is discovered exactly when it has a parent. -/
theorem Sound.isDiscovered_iff (sound : Sound graph walk) (other : entity ≠ Retrace.root) :
    walk.isDiscovered entity = true ↔ ∃ event, walk.parentOf entity = some event := by
  constructor
  · intro known
    obtain ⟨frames, lineage⟩ := sound.lineage known
    cases lineage with
    | root isRoot => exact absurd isRoot other
    | via _ _ parent _ => exact ⟨_, parent⟩
  · rintro ⟨event, parent⟩
    exact (sound.parent_spec parent).2.2.1

/-- The frames below an event on top are the lineage of its source. -/
theorem Sound.lineage_below (sound : Sound graph walk) {event : EventId} {below : List Frame}
    (stack : walk.stack = .via event :: below) :
    event < graph.numEvents ∧ Lineage graph walk (graph.source event) below := by
  have stands := sound.stands
  rw [stack] at stands
  cases stands with
  | via inside _ lineage => exact ⟨inside, lineage⟩

/-- All frames are the lineage of the current entity, unless the top one is a leaf. -/
theorem Sound.lineage_top (sound : Sound graph walk) {top : Frame} {below : List Frame}
    (stack : walk.stack = top :: below) (isOpen : walk.isLeaf graph top = false) :
    Lineage graph walk (walk.currentEntity graph) (top :: below) := by
  rw [currentEntity, stack]
  cases top with
  | root =>
    have stands := sound.stands
    rw [stack] at stands
    cases stands with
    | root => exact .root rfl
  | via event =>
    obtain ⟨inside, lineage⟩ := sound.lineage_below stack
    exact .via inside rfl (by simpa [isLeaf, Frame.entity] using isOpen) lineage

/-- The event of every frame below the top is the parent of its target. -/
theorem Sound.parent_below (sound : Sound graph walk) {event : EventId}
    (inside : .via event ∈ walk.stack.tail) :
    walk.parentOf (graph.target event) = some event := by
  have stands := sound.stands
  revert stands inside
  generalize walk.stack = stack
  intro inside stands
  cases stands with
  | finished => simp at inside
  | root => simp at inside
  | via _ _ lineage => exact (lineage.of_mem inside).2.1

/-- The trail is no longer than the number of discovered entities. -/
theorem Sound.length_trail_le (sound : Sound graph walk) :
    walk.trail.length ≤ walk.numDiscovered := by
  have stands := sound.stands
  rw [trail_eq]
  revert stands
  generalize walk.stack = stack
  intro stands
  cases stands with
  | finished => exact Nat.zero_le _
  | root => exact Nat.zero_le _
  | via _ _ lineage =>
    obtain ⟨nodup, known⟩ := sound.nodup_targets lineage
    simpa using length_le_numDiscovered nodup known

end Walk

namespace Session

/-- What holds of the position of a session at every moment. -/
structure Coherent (session : Session) : Prop where
  /-- The walk is finished, or its stack is the root frame with the backtrace on top, which is a
  path from the root to the current entity. -/
  path : session.walk.stack = [] ∨
    (session.walk.stack = (session.backtrace.map .via).reverse ++ [.root] ∧
      session.graph.IsPath root session.backtrace session.currentEntity)
  /-- The root is discovered. -/
  root_discovered : session.walk.isDiscovered root = true
  /-- The root has no parent. -/
  root_parent : session.walk.parentOf root = none
  /-- Any other entity is discovered exactly when it has a parent. -/
  discovered_iff : ∀ entity, entity ≠ root →
    (session.walk.isDiscovered entity = true ↔ ∃ event, session.walk.parentOf entity = some event)
  /-- The parent of an entity is an event into it from a discovered entity. -/
  parent_spec : ∀ entity event, session.walk.parentOf entity = some event →
    event < session.graph.numEvents ∧ session.graph.target event = entity ∧
      session.walk.isDiscovered (session.graph.source event) = true
  /-- The parents lead from every discovered entity to the root. -/
  lineage : ∀ entity, session.walk.isDiscovered entity = true →
    ∃ frames, Walk.Lineage session.graph session.walk entity frames
  /-- The event of every frame below the top is the parent of its target. -/
  parent_below : ∀ event, .via event ∈ session.walk.stack.tail →
    session.walk.parentOf (session.graph.target event) = some event
  /-- The frames below an event on top are the lineage of its source, whether the frame is a leaf
  or not. -/
  lineage_below : ∀ event below, session.walk.stack = .via event :: below →
    Walk.Lineage session.graph session.walk (session.graph.source event) below
  /-- All frames are the lineage of the current entity, unless the top one is a leaf. -/
  lineage_top : ∀ top below, session.walk.stack = top :: below →
    session.walk.isLeaf session.graph top = false →
    Walk.Lineage session.graph session.walk session.currentEntity (top :: below)
  /-- The backtrace is no longer than the number of discovered entities. -/
  depth_le : session.depth ≤ session.walk.numDiscovered
  /-- A session is at its start exactly when it stands in the root frame alone. -/
  isAtStart_iff : session.isAtStart = true ↔ session.walk.stack = [.root]
  /-- No session is at its start and finished. -/
  not_start_and_finished : ¬ (session.isAtStart = true ∧ session.isFinished = true)

/-- A step that makes a move does not end in the root frame alone. -/
theorem stack_step_ne {session : Session} (unfinished : session.isFinished = false) :
    session.step.walk.stack ≠ [.root] := by
  rw [walk_step unfinished, Walk.advance]
  split
  · simp
  · simp

/-- A session with sessions behind its moves stands in the root frame alone only without moves. -/
theorem Traced.isAtStart_iff {session : Session} {past : List Session}
    (traced : Traced session past) :
    session.isAtStart = true ↔ session.walk.stack = [.root] := by
  cases traced with
  | start _ _ log walk => simp [isAtStart, log, walk, Walk.start]
  | moved _ unfinished revision =>
    have moved : session.isAtStart = false := by
      rw [isAtStart, revision.log_eq, log_step unfinished]
      rfl
    rw [moved, revision.walk_eq, Walk.stack_growBy]
    exact ⟨fun start => by simp at start, fun stack => absurd stack (stack_step_ne unfinished)⟩

/-- A session with sessions behind its moves is coherent. -/
theorem Traced.coherent {session : Session} {past : List Session} (traced : Traced session past) :
    session.Coherent := by
  have sound := traced.sound
  refine ⟨sound.path, sound.root_discovered, sound.root_parent, fun _ => sound.isDiscovered_iff, ?_,
    fun _ => sound.lineage, fun _ => sound.parent_below,
    fun _ _ stack => (sound.lineage_below stack).2, fun _ _ => sound.lineage_top,
    sound.length_trail_le, traced.isAtStart_iff, ?_⟩
  · intro entity event parent
    obtain ⟨inside, target, _, origin⟩ := sound.parent_spec parent
    exact ⟨inside, target, origin⟩
  · rintro ⟨start, finished⟩
    rw [traced.isAtStart_iff] at start
    simp [isFinished, start] at finished

/-- Every session that commands make of a new one is coherent: its stack is a path from the root,
its parents form a tree over the discovered entities, the frames below the top are the lineage of
where they lead, and it stands in the root frame alone only at its start. -/
theorem coherent_run (rootName result : String) (commands : List Command) :
    ((Session.new rootName result).run commands).Coherent := by
  obtain ⟨past, traced⟩ := Reachable.traced ⟨rootName, result, commands, rfl⟩
  exact traced.coherent

end Session

end Retrace
