import Retrace.Proofs.History
import Retrace.Proofs.Lineage

/-!
# Soundness of walks

`Walk.Sound` is what holds of a walk at every moment: every discovered entity has a lineage, the
walk stands on a lineage, and the events it noted as parents lie behind it. A move keeps it, and so
does every edit of the graph; since every reachable session is a step from an earlier one in an
edited graph, it holds of all of them (`Reachable.sound`).
-/
namespace Retrace.Walk

/-! ## Entering an event -/

/-- Entering an event puts its frame on top. -/
@[simp] theorem stack_enter (walk : Walk) (event : EventId) (target : EntityId) :
    (walk.enter event target).1.stack = .via event :: walk.stack := by
  unfold enter
  split <;> rfl

/-- Entering an event discovers its target and nothing else. -/
theorem isDiscovered_enter {walk : Walk} {target : EntityId}
    (inside : target < walk.discovered.size) (event : EventId) (entity : EntityId) :
    (walk.enter event target).1.isDiscovered entity = true ↔
      walk.isDiscovered entity = true ∨ entity = target := by
  unfold enter
  split
  · rename_i known
    exact ⟨.inl, fun found => found.elim id fun same => same ▸ known⟩
  · by_cases same : entity = target
    · subst same
      simp [isDiscovered, inside]
    · simp [isDiscovered, Ne.symm same, same]

/-- Entering an event whose target is discovered notes no parent. -/
theorem parentOf_enter_known {walk : Walk} {target : EntityId}
    (known : walk.isDiscovered target = true) (event : EventId) (entity : EntityId) :
    (walk.enter event target).1.parentOf entity = walk.parentOf entity := by
  simp [enter, known, parentOf]

/-- Entering an event that discovers its target notes the event as the parent. -/
theorem parentOf_enter_new {walk : Walk} {target : EntityId} (inside : target < walk.parent.size)
    (new : walk.isDiscovered target = false) (event : EventId) (entity : EntityId) :
    (walk.enter event target).1.parentOf entity =
      if entity = target then some event else walk.parentOf entity := by
  by_cases same : entity = target
  · subst same
    simp [enter, new, parentOf, inside]
  · simp [enter, new, parentOf, Ne.symm same, same]

/-! ## The invariant -/

/-- What holds of a walk through a graph at every moment. -/
structure Sound (graph : Graph) (walk : Walk) : Prop where
  /-- There is an entry for each entity. -/
  fits : walk.Fits graph
  /-- The root is discovered. -/
  root_discovered : walk.isDiscovered root = true
  /-- The root has no parent. -/
  root_parent : walk.parentOf root = none
  /-- A parent is an event into a discovered entity from a discovered one. -/
  parent_spec : ∀ {entity event}, walk.parentOf entity = some event → event < graph.numEvents ∧
    graph.target event = entity ∧ walk.isDiscovered entity = true ∧
    walk.isDiscovered (graph.source event) = true
  /-- The parents lead from every discovered entity to the root. -/
  lineage : ∀ {entity}, walk.isDiscovered entity = true → ∃ frames, Lineage graph walk entity frames
  /-- The frames below the top are a lineage. -/
  stands : Stands graph walk walk.stack
  /-- No parent comes after an event of the stack with the same source. -/
  settled : ∀ {left entity event}, .via left ∈ walk.stack → walk.parentOf entity = some event →
    graph.source event = graph.source left → event ≤ left
  /-- No parent leaves the entity of the top frame while that frame is open. -/
  fresh : ∀ {top below entity event}, walk.stack = top :: below → walk.isLeaf graph top = false →
    walk.parentOf entity = some event → graph.source event ≠ top.entity graph

/-- An entity that is not discovered has no parent. -/
theorem Sound.parentOf_eq_none {graph : Graph} {walk : Walk} (sound : Sound graph walk)
    {entity : EntityId} (unknown : walk.isDiscovered entity = false) :
    walk.parentOf entity = none := by
  cases parent : walk.parentOf entity with
  | none => rfl
  | some event =>
    have known := (sound.parent_spec parent).2.2.1
    rw [unknown] at known
    contradiction

/-- Lineages lead to discovered entities. -/
theorem Sound.isDiscovered_of_lineage {graph : Graph} {walk : Walk} (sound : Sound graph walk)
    {entity : EntityId} {frames : List Frame} (lineage : Lineage graph walk entity frames) :
    walk.isDiscovered entity = true := by
  cases lineage with
  | root isRoot => exact isRoot ▸ sound.root_discovered
  | via _ _ parent _ => exact (sound.parent_spec parent).2.2.1

/-- The frames of a stack were entered through events. -/
theorem Stands.lt_of_mem {graph : Graph} {walk : Walk} {stack : List Frame} {event : EventId}
    (stands : Stands graph walk stack) (inside : .via event ∈ stack) : event < graph.numEvents := by
  cases stands with
  | finished => simp at inside
  | root => simp at inside
  | via bound _ lineage =>
    rcases List.mem_cons.mp inside with same | lower
    · exact Frame.via.inj same ▸ bound
    · exact (lineage.of_mem lower).1

/-- The entity of a frame stays the same in a larger graph. -/
theorem entity_eq_of_extends {graph larger : Graph} (grown : graph.Extends larger) {frame : Frame}
    (bound : ∀ event, frame = .via event → event < graph.numEvents) :
    frame.entity larger = frame.entity graph := by
  cases frame with
  | root => rfl
  | via event => exact grown.target_eq event (bound event rfl)

/-- At the start no entity has a parent. -/
theorem parentOf_start (numEntities : Nat) (entity : EntityId) :
    (start numEntities).parentOf entity = none := by
  simp only [parentOf, start, Array.getElem?_replicate]
  split <;> rfl

/-- At the start the root is discovered and nothing else. -/
theorem isDiscovered_start {numEntities : Nat} (rooted : 0 < numEntities) (entity : EntityId) :
    (start numEntities).isDiscovered entity = true ↔ entity = root := by
  constructor
  · intro found
    by_contra other
    simp [isDiscovered, start, Ne.symm other, Array.getElem?_replicate] at found
    split at found <;> simp at found
  · rintro rfl
    simp [isDiscovered, start, root, rooted]

/-- A walk at the start is sound. -/
theorem sound_start {graph : Graph} (rooted : 0 < graph.numEntities) :
    Sound graph (.start graph.numEntities) := by
  refine ⟨fits_start graph, (isDiscovered_start rooted root).mpr rfl, parentOf_start _ root, ?_, ?_,
    .root, ?_, ?_⟩
  · intro entity event parent
    rw [parentOf_start] at parent
    contradiction
  · intro entity found
    exact ⟨[.root], .root ((isDiscovered_start rooted entity).mp found)⟩
  · intro left entity event _ parent
    rw [parentOf_start] at parent
    contradiction
  · intro top below entity event _ _ parent
    rw [parentOf_start] at parent
    contradiction

/-- Editing the graph keeps a walk sound. -/
theorem Sound.extend {graph larger : Graph} {walk : Walk} (sound : Sound graph walk)
    (grown : graph.Extends larger) :
    Sound larger (walk.growBy (larger.numEntities - graph.numEntities)) := by
  have source {event : EventId} (inside : event < graph.numEvents) :
      larger.source event = graph.source event := grown.source_eq event inside
  have raise {entity : EntityId} {frames : List Frame}
      (lineage : Lineage graph walk entity frames) :
      Lineage larger (walk.growBy (larger.numEntities - graph.numEntities)) entity frames :=
    lineage.mono grown fun entity event parent => by rw [parentOf_growBy, parent]
  refine ⟨sound.fits.growBy grown.numEntities_le, ?_, ?_, ?_, ?_, ?_, ?_, ?_⟩
  · rw [isDiscovered_growBy]
    exact sound.root_discovered
  · rw [parentOf_growBy]
    exact sound.root_parent
  · intro entity event parent
    rw [parentOf_growBy] at parent
    obtain ⟨inside, target, known, origin⟩ := sound.parent_spec parent
    rw [isDiscovered_growBy, isDiscovered_growBy, source inside]
    exact ⟨Nat.lt_of_lt_of_le inside grown.numEvents_le,
      (grown.target_eq event inside).trans target, known, origin⟩
  · intro entity known
    rw [isDiscovered_growBy] at known
    obtain ⟨frames, lineage⟩ := sound.lineage known
    exact ⟨frames, raise lineage⟩
  · rw [stack_growBy]
    have stands := sound.stands
    revert stands
    generalize walk.stack = stack
    intro stands
    cases stands with
    | finished => exact .finished
    | root => exact .root
    | via inside known lineage =>
      rw [← source inside] at lineage
      refine .via (Nat.lt_of_lt_of_le inside grown.numEvents_le) ?_ (raise lineage)
      rw [isDiscovered_growBy, grown.target_eq _ inside]
      exact known
  · intro left entity event stacked parent same
    rw [parentOf_growBy] at parent
    rw [stack_growBy] at stacked
    rw [source (sound.parent_spec parent).1, source (sound.stands.lt_of_mem stacked)] at same
    exact sound.settled stacked parent same
  · intro top below entity event stack isOpen parent same
    rw [parentOf_growBy] at parent
    rw [stack_growBy] at stack
    have bound (entered : EventId) (frame : top = .via entered) : entered < graph.numEvents :=
      sound.stands.lt_of_mem (by simp [stack, frame])
    rw [source (sound.parent_spec parent).1, entity_eq_of_extends grown bound] at same
    refine sound.fresh stack ?_ parent same
    cases top with
    | root => rfl
    | via entered =>
      simpa [isLeaf, grown.target_eq entered (bound entered rfl)] using isOpen

section

variable {graph : Graph} {walk : Walk} {depth : Nat} {event : EventId}
  {rest : List (Nat × EventId)} {popped stay : List Frame}

/-- Every parent with the source of the event that a move enters comes before it. -/
theorem Sound.parent_lt (sound : Sound graph walk)
    (descends : walk.Descends graph depth event rest popped stay) {entity : EntityId}
    {noted : EventId} (parent : walk.parentOf entity = some noted)
    (same : graph.source noted = graph.source event) : noted < event := by
  rcases descends.after with ⟨nothing, top, below, stack, isOpen⟩ | ⟨left, passed, source, order⟩
  · have lineage := descends.lineage
    have whole := descends.split
    rw [nothing, List.nil_append, stack] at whole
    rw [← whole] at lineage
    exact absurd (same.trans lineage.entity_eq.symm) (sound.fresh stack isOpen parent)
  · have stacked : .via left ∈ walk.stack := by
      rw [descends.split]
      exact List.mem_append_left _ passed
    exact Nat.lt_of_le_of_lt (sound.settled stacked parent (same.trans source.symm)) order

/-- A move that enters an event into a discovered entity keeps a walk sound. The frame entered is a
leaf, as parents come before the event. -/
theorem Sound.enter_known (sound : Sound graph walk)
    (descends : walk.Descends graph depth event rest popped stay)
    (known : walk.isDiscovered (graph.target event) = true) :
    Sound graph { walk with stack := .via event :: stay } := by
  have kept {frame : Frame} (inside : frame ∈ stay) : frame ∈ walk.stack := by
    rw [descends.split]
    exact List.mem_append_right _ inside
  refine ⟨⟨sound.fits.discovered_size, sound.fits.parent_size⟩, sound.root_discovered,
    sound.root_parent, sound.parent_spec, fun known => ?_, ?_, ?_, ?_⟩
  · obtain ⟨frames, lineage⟩ := sound.lineage known
    exact ⟨frames, lineage.restack _⟩
  · exact .via (Graph.lt_of_isEnabled descends.enabled) known (descends.lineage.restack _)
  · intro left entity noted stacked parent same
    rcases List.mem_cons.mp stacked with top | lower
    · obtain rfl := Frame.via.inj top
      exact Nat.le_of_lt (sound.parent_lt descends parent same)
    · exact sound.settled (kept lower) parent same
  · intro top below entity noted stack isOpen parent
    obtain ⟨rfl, rfl⟩ := List.cons.inj stack
    have noted : walk.parentOf (graph.target event) = some event := by
      simpa [isLeaf, parentOf] using isOpen
    exact absurd (sound.parent_lt descends noted rfl) (Nat.lt_irrefl event)

/-- A walk that has entered an event into an undiscovered entity, discovering it with the event as
its parent, is sound. -/
theorem Sound.discover {entered : Walk} (sound : Sound graph walk)
    (descends : walk.Descends graph depth event rest popped stay)
    (unknown : walk.isDiscovered (graph.target event) = false) (fits : entered.Fits graph)
    (stack : entered.stack = .via event :: stay)
    (discovered : ∀ entity, entered.isDiscovered entity = true ↔
      walk.isDiscovered entity = true ∨ entity = graph.target event)
    (parents : ∀ entity, entered.parentOf entity =
      if entity = graph.target event then some event else walk.parentOf entity) :
    Sound graph entered := by
  have bound := Graph.lt_of_isEnabled descends.enabled
  have origin := sound.isDiscovered_of_lineage descends.lineage
  have kept (entity : EntityId) (noted : EventId) (parent : walk.parentOf entity = some noted) :
      entered.parentOf entity = some noted := by
    have other : entity ≠ graph.target event := by
      rintro rfl
      rw [sound.parentOf_eq_none unknown] at parent
      contradiction
    rw [parents, if_neg other, parent]
  have raise {entity : EntityId} {frames : List Frame}
      (lineage : Lineage graph walk entity frames) : Lineage graph entered entity frames :=
    lineage.mono (.refl graph) kept
  have target : Lineage graph entered (graph.target event) (.via event :: stay) :=
    .via bound rfl (by rw [parents, if_pos rfl]) (raise descends.lineage)
  have origin_ne : graph.source event ≠ graph.target event := by
    intro same
    rw [same, unknown] at origin
    contradiction
  have former {entity : EntityId} {noted : EventId}
      (parent : entered.parentOf entity = some noted) :
      (entity = graph.target event ∧ noted = event) ∨ walk.parentOf entity = some noted := by
    rw [parents] at parent
    split at parent
    · exact .inl ⟨‹_›, (Option.some.inj parent).symm⟩
    · exact .inr parent
  have root_ne : root ≠ graph.target event := by
    intro same
    rw [← same, sound.root_discovered] at unknown
    contradiction
  refine ⟨fits, ?_, ?_, ?_, ?_, ?_, ?_, ?_⟩
  · exact (discovered _).mpr (.inl sound.root_discovered)
  · rw [parents, if_neg root_ne]
    exact sound.root_parent
  · intro entity noted parent
    rcases former parent with ⟨rfl, rfl⟩ | parent
    · exact ⟨bound, rfl, (discovered _).mpr (.inr rfl), (discovered _).mpr (.inl origin)⟩
    · obtain ⟨inside, target, known, origin⟩ := sound.parent_spec parent
      exact ⟨inside, target, (discovered _).mpr (.inl known), (discovered _).mpr (.inl origin)⟩
  · intro entity known
    rcases (discovered _).mp known with known | rfl
    · obtain ⟨frames, lineage⟩ := sound.lineage known
      exact ⟨frames, raise lineage⟩
    · exact ⟨_, target⟩
  · rw [stack]
    exact .via bound ((discovered _).mpr (.inr rfl)) (raise descends.lineage)
  · intro left entity noted stacked parent same
    rw [stack] at stacked
    rcases former parent with ⟨_, rfl⟩ | parent
    · rcases List.mem_cons.mp stacked with top | lower
      · exact Nat.le_of_eq (Frame.via.inj top).symm
      · exact absurd same.symm (descends.lineage.source_ne sound.root_parent lower)
    · rcases List.mem_cons.mp stacked with top | lower
      · obtain rfl := Frame.via.inj top
        exact Nat.le_of_lt (sound.parent_lt descends parent same)
      · have before : .via left ∈ walk.stack := by
          rw [descends.split]
          exact List.mem_append_right _ lower
        exact sound.settled before parent same
  · intro top below entity noted tops _ parent
    rw [stack] at tops
    obtain ⟨rfl, _⟩ := List.cons.inj tops
    rcases former parent with ⟨_, rfl⟩ | parent
    · exact origin_ne
    · intro same
      have known := (sound.parent_spec parent).2.2.2
      rw [same, Frame.entity, unknown] at known
      contradiction

/-- A move that discovers an entity keeps a walk sound. -/
theorem Sound.enter_new (wellFormed : graph.WellFormed) (sound : Sound graph walk)
    (descends : walk.Descends graph depth event rest popped stay)
    (unknown : walk.isDiscovered (graph.target event) = false) :
    Sound graph ({ walk with stack := stay }.enter event (graph.target event)).1 := by
  have inside := wellFormed.target_lt event (Graph.lt_of_isEnabled descends.enabled)
  have fits : ({ walk with stack := stay } : Walk).Fits graph :=
    ⟨sound.fits.discovered_size, sound.fits.parent_size⟩
  have still : ({ walk with stack := stay } : Walk).isDiscovered (graph.target event) = false :=
    unknown
  refine sound.discover descends unknown (fits.enter event _) (stack_enter _ event _) ?_ ?_
  · exact isDiscovered_enter (fits.discovered_size ▸ inside) event
  · exact parentOf_enter_new (fits.parent_size ▸ inside) still event

end

/-- A move keeps a walk sound. -/
theorem Sound.advance {graph : Graph} {walk : Walk} (wellFormed : graph.WellFormed)
    (sound : Sound graph walk) : Sound graph (walk.advance graph).1 := by
  cases agenda : walk.agenda graph with
  | nil =>
    rw [advance_of_agenda_eq_nil wellFormed sound.stands agenda]
    refine ⟨⟨sound.fits.discovered_size, sound.fits.parent_size⟩, sound.root_discovered,
      sound.root_parent, sound.parent_spec, fun known => ?_, .finished, ?_, ?_⟩
    · obtain ⟨frames, lineage⟩ := sound.lineage known
      exact ⟨frames, lineage.restack []⟩
    · intro left entity event stacked
      simp at stacked
    · intro top below entity event stack
      simp at stack
  | cons first rest =>
    obtain ⟨depth, event⟩ := first
    obtain ⟨popped, stay, descends⟩ := descends_of_agenda wellFormed sound.stands agenda
    rw [descends.advance_eq]
    cases known : walk.isDiscovered (graph.target event) with
    | false => exact sound.enter_new wellFormed descends known
    | true =>
      have entered : ({ walk with stack := stay }.enter event (graph.target event)).1 =
          { walk with stack := .via event :: stay } := by
        rw [enter, if_pos (show Walk.isDiscovered { walk with stack := stay } _ = true from known)]
      rw [entered]
      exact sound.enter_known descends known

end Retrace.Walk

namespace Retrace.Session

/-- The walk of every session with sessions behind its moves is sound. -/
theorem Traced.sound {session : Session} {past : List Session} (traced : Traced session past) :
    Walk.Sound session.graph session.walk := by
  induction traced with
  | start _ rooted _ walk =>
    rw [walk]
    exact Walk.sound_start rooted
  | moved traced unfinished revision sound =>
    have grown := revision.grown
    rw [revision.walk_eq, walk_step unfinished]
    rw [graph_step] at grown ⊢
    exact (sound.advance traced.wellFormed).extend grown

/-- The walk of every reachable session is sound. -/
theorem Reachable.sound {session : Session} (reachable : session.Reachable) :
    Walk.Sound session.graph session.walk := by
  obtain ⟨past, traced⟩ := reachable.traced
  exact traced.sound

end Retrace.Session
