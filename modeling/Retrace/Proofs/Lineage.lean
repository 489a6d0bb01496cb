import Retrace.Proofs.Adjacency

/-!
# Lineages and agendas

The lineage of an entity is the stack of frames that leads to it from the root along the events
that discovered each entity on the way. The frames below the top of a walk are always a lineage.

The agenda of a walk is what a recursion over the graph would still have to do at that point: the
enabled events of the top frame, unless it is a leaf, and below it, frame by frame, the enabled
events after the one that was entered. A move enters the first event of the agenda and leaves the
rest of it for later (`descends_of_agenda`); it ends the walk when the agenda is empty
(`advance_of_agenda_eq_nil`). These two say everything that a move can do.
-/
namespace Retrace

/-- Events of a list of frames, in the same order. -/
def trailOf (frames : List Frame) : List EventId := frames.filterMap Frame.event?

/-- No frames have no events. -/
@[simp] theorem trailOf_nil : trailOf [] = [] := rfl

/-- The root frame has no event. -/
@[simp] theorem trailOf_root (frames : List Frame) : trailOf (.root :: frames) = trailOf frames :=
  rfl

/-- Any other frame has the event it was entered through. -/
@[simp] theorem trailOf_via (event : EventId) (frames : List Frame) :
    trailOf (.via event :: frames) = event :: trailOf frames := rfl

namespace Walk

/-- The trail of a walk is the trail of its frames. -/
theorem trail_eq (walk : Walk) : walk.trail = trailOf walk.stack := rfl

/-- The frames that lead from the root to an entity along the events that discovered the entities
on the way, the last one first. -/
inductive Lineage (graph : Graph) (walk : Walk) : EntityId → List Frame → Prop
  /-- Nothing leads to the root. -/
  | root {entity : EntityId} : entity = Retrace.root → Lineage graph walk entity [.root]
  /-- An entity that an event discovered is reached from the source of the event. -/
  | via {entity : EntityId} {event : EventId} {frames : List Frame} :
      event < graph.numEvents → graph.target event = entity → walk.parentOf entity = some event →
      Lineage graph walk (graph.source event) frames →
      Lineage graph walk entity (.via event :: frames)

namespace Lineage

variable {graph : Graph} {walk : Walk} {entity : EntityId} {frames : List Frame}

/-- The top frame of a lineage is about its entity. -/
theorem entity_eq {top : Frame} {below : List Frame}
    (lineage : Lineage graph walk entity (top :: below)) : top.entity graph = entity := by
  cases lineage with
  | root isRoot => exact isRoot.symm
  | via _ target _ _ => exact target

/-- A lineage stays one when the graph is extended and more entities are discovered. -/
theorem mono {larger : Graph} {later : Walk} (grown : graph.Extends larger)
    (kept : ∀ entity event, walk.parentOf entity = some event → later.parentOf entity = some event)
    (lineage : Lineage graph walk entity frames) : Lineage larger later entity frames := by
  induction lineage with
  | root isRoot => exact .root isRoot
  | via inside target parent _ lineage =>
    rw [← grown.source_eq _ inside] at lineage
    exact .via (Nat.lt_of_lt_of_le inside grown.numEvents_le)
      ((grown.target_eq _ inside).trans target) (kept _ _ parent) lineage

/-- A lineage does not depend on where the walk stands. -/
theorem restack (stack : List Frame) (lineage : Lineage graph walk entity frames) :
    Lineage graph { walk with stack } entity frames :=
  lineage.mono (.refl graph) fun entity event (parent : walk.parentOf entity = some event) => parent

/-- An entity has one lineage at most. -/
theorem unique {others : List Frame} (parentless : walk.parentOf Retrace.root = none)
    (first : Lineage graph walk entity frames) (second : Lineage graph walk entity others) :
    frames = others := by
  induction first generalizing others with
  | root isRoot =>
    cases second with
    | root _ => rfl
    | via _ _ parent _ =>
      rw [isRoot, parentless] at parent
      contradiction
  | via _ _ parent _ ih =>
    cases second with
    | root isRoot =>
      rw [isRoot, parentless] at parent
      contradiction
    | via _ _ parent' lineage =>
      obtain rfl : _ = _ := Option.some.inj (parent.symm.trans parent')
      rw [ih lineage]

/-- Each event of a lineage discovered its target, and its source has a shorter lineage. -/
theorem of_mem {event : EventId} (lineage : Lineage graph walk entity frames)
    (inside : .via event ∈ frames) : event < graph.numEvents ∧
      walk.parentOf (graph.target event) = some event ∧
      ∃ lower, lower.length < frames.length ∧ Lineage graph walk (graph.source event) lower := by
  induction lineage with
  | root _ => simp at inside
  | @via entity other frames bound target parent lineage ih =>
    rcases List.mem_cons.mp inside with same | lower
    · obtain rfl := Frame.via.inj same
      exact ⟨bound, target ▸ parent, frames, by simp, lineage⟩
    · obtain ⟨bound, parent, lower, shorter, lineage⟩ := ih lower
      exact ⟨bound, parent, lower, Nat.lt_succ_of_lt shorter, lineage⟩

/-- No event of a lineage leaves the entity that the lineage leads to. -/
theorem source_ne {event : EventId} (parentless : walk.parentOf Retrace.root = none)
    (lineage : Lineage graph walk entity frames) (inside : .via event ∈ frames) :
    graph.source event ≠ entity := by
  intro same
  obtain ⟨_, _, lower, shorter, lowerLineage⟩ := lineage.of_mem inside
  rw [same] at lowerLineage
  rw [lineage.unique parentless lowerLineage] at shorter
  exact Nat.lt_irrefl _ shorter

end Lineage

/-! ## Agendas -/

end Walk

/-- The enabled events after each event of a trail among those with the same source, each with the
depth at which it would be entered. -/
def Graph.later (graph : Graph) : List EventId → List (Nat × EventId)
  | [] => []
  | event :: below =>
    ((graph.enabledOutgoing (graph.source event)).filter (event < ·)).map (below.length + 1, ·) ++
      graph.later below

namespace Walk

/-- The enabled events that a walk can enter from its top frame. -/
def opening (walk : Walk) (graph : Graph) : List EventId :=
  match walk.stack with
  | [] => []
  | top :: _ => if walk.isLeaf graph top then [] else graph.enabledOutgoing (top.entity graph)

/-- The events that a walk has before it in the frames it stands in, in the order in which it
comes to them, each with the depth at which it would be entered. -/
def agenda (walk : Walk) (graph : Graph) : List (Nat × EventId) :=
  (walk.opening graph).map (walk.trail.length + 1, ·) ++ graph.later walk.trail

/-- Stacks on which a walk can stand: none when it is finished, else the root frame alone, or a
frame entered from a lineage through an event whose target is discovered. -/
inductive Stands (graph : Graph) (walk : Walk) : List Frame → Prop
  /-- A finished walk has no frames. -/
  | finished : Stands graph walk []
  /-- A walk can stand in the root frame. -/
  | root : Stands graph walk [.root]
  /-- A walk can stand in a frame that it entered from a lineage. -/
  | via {event : EventId} {frames : List Frame} : event < graph.numEvents →
      walk.isDiscovered (graph.target event) = true →
      Lineage graph walk (graph.source event) frames → Stands graph walk (.via event :: frames)

/-- What a move does that enters an event: it leaves the frames `popped` and enters the event from
the frames `stay`. -/
structure Descends (walk : Walk) (graph : Graph) (depth : Nat) (event : EventId)
    (rest : List (Nat × EventId)) (popped stay : List Frame) : Prop where
  /-- The frames left and the frames kept make up the stack. -/
  split : walk.stack = popped ++ stay
  /-- The search finds the event and the frames. -/
  searched : walk.backtrack graph none walk.stack = (popped, some (event, stay))
  /-- The frames kept lead to the source of the event. -/
  lineage : Lineage graph walk (graph.source event) stay
  /-- The event is enabled. -/
  enabled : graph.isEnabled event = true
  /-- The event is entered one level below the frames kept. -/
  depth_eq : depth = (trailOf stay).length + 1
  /-- What is left of the agenda is what comes after the event and below. -/
  rest_eq : rest = graph.later (event :: trailOf stay)
  /-- The frame kept is the top one and no leaf, or the event comes after one of the same source
  that was left. -/
  after : (popped = [] ∧ ∃ top below, walk.stack = top :: below ∧ walk.isLeaf graph top = false) ∨
    ∃ left, .via left ∈ popped ∧ graph.source left = graph.source event ∧ left < event

section

variable {graph : Graph} (wellFormed : graph.WellFormed) {walk : Walk}
include wellFormed

/-- Coming back to a frame, a walk goes on with the first enabled event after the one it left. -/
theorem nextEvent?_some (walk : Walk) {left : EventId} {frame : Frame}
    (inside : left < graph.numEvents) (leaves : frame.entity graph = graph.source left) :
    walk.nextEvent? graph frame (some left) =
      ((graph.enabledOutgoing (graph.source left)).filter (left < ·)).head? := by
  simp only [nextEvent?, Option.isNone_some, Bool.false_and, Bool.false_eq_true, if_false, leaves]
  exact wellFormed.nextEnabled?_some inside

/-- The search through the frames below an event that was left, when nothing comes after it. -/
theorem backtrack_of_later_eq_nil {left : EventId} {frames : List Frame}
    (inside : left < graph.numEvents) (lineage : Lineage graph walk (graph.source left) frames)
    (nothing : graph.later (left :: trailOf frames) = []) :
    walk.backtrack graph (some left) frames = (frames, none) := by
  induction frames generalizing left with
  | nil => rfl
  | cons frame below ih =>
    simp only [Graph.later, List.append_eq_nil_iff, List.map_eq_nil_iff] at nothing
    have next := nextEvent?_some wellFormed walk inside lineage.entity_eq
    rw [nothing.1] at next
    simp only [backtrack, next, List.head?_nil]
    cases lineage with
    | root _ => rfl
    | @via _ event _ bound _ _ lineage =>
      have nothingBelow : graph.later (event :: trailOf below) = [] := nothing.2
      rw [Frame.event?, ih bound lineage nothingBelow]

/-- The search through the frames below an event that was left, when something comes after it: the
first such event is found, in a frame that is a lineage of its source. That is the frame on top when
an enabled event comes after the one left there, and otherwise the search goes on below it. -/
theorem backtrack_of_later_eq_cons {left event : EventId} {frames : List Frame} {depth : Nat}
    {rest : List (Nat × EventId)} (inside : left < graph.numEvents)
    (lineage : Lineage graph walk (graph.source left) frames)
    (first : graph.later (left :: trailOf frames) = (depth, event) :: rest) :
    ∃ popped stay, frames = popped ++ stay ∧
      walk.backtrack graph (some left) frames = (popped, some (event, stay)) ∧
      Lineage graph walk (graph.source event) stay ∧ graph.isEnabled event = true ∧
      depth = (trailOf stay).length + 1 ∧ rest = graph.later (event :: trailOf stay) ∧
      ∃ last, (last = left ∨ .via last ∈ popped) ∧ graph.source last = graph.source event ∧
        last < event := by
  induction frames generalizing left with
  | nil => cases lineage
  | cons frame below ih =>
    have next := nextEvent?_some wellFormed walk inside lineage.entity_eq
    rw [Graph.later] at first
    cases later : (graph.enabledOutgoing (graph.source left)).filter (left < ·) with
    | cons found others =>
      rw [later] at next first
      simp only [List.map_cons, List.cons_append, List.cons.injEq, Prod.mk.injEq] at first
      obtain ⟨⟨rfl, rfl⟩, rfl⟩ := first
      have member : found ∈ (graph.enabledOutgoing (graph.source left)).filter (left < ·) := by
        simp [later]
      obtain ⟨listed, above⟩ := List.mem_filter.mp member
      obtain ⟨enabled, source⟩ := wellFormed.mem_enabledOutgoing.mp listed
      have increasing := wellFormed.enabledOutgoing_increasing (graph.source left)
      refine ⟨[], frame :: below, rfl, ?_, source ▸ lineage, enabled, rfl, ?_, left, .inl rfl,
        source.symm, by simpa using above⟩
      · simp [backtrack, next]
      · rw [Graph.later, source, Graph.filter_next_lt increasing later]
    | nil =>
      rw [later] at next first
      cases lineage with
      | root _ => simp [Graph.later] at first
      | @via _ entered _ bound _ _ lineage =>
        obtain ⟨popped, stay, split, searched, lineage, enabled, depth, rest, last, place, order⟩ :=
          ih bound lineage (by simpa using first)
        refine ⟨.via entered :: popped, stay, by rw [split]; rfl, ?_, lineage, enabled, depth, rest,
          last, .inr ?_, order⟩
        · simp [backtrack, next, Frame.event?, searched]
        · rcases place with rfl | place
          · exact List.mem_cons_self
          · exact List.mem_cons_of_mem _ place

omit wellFormed in
/-- A frame that was just entered and is no leaf goes on with its first enabled event. -/
theorem nextEvent?_none {top : Frame} (isOpen : walk.isLeaf graph top = false) :
    walk.nextEvent? graph top none = (graph.enabledOutgoing (top.entity graph)).head? := by
  simp only [nextEvent?, isOpen, Bool.and_false, Bool.false_eq_true, if_false]
  exact Graph.nextEnabled?_none _

omit wellFormed in
/-- The search from the top frame begins with what the frame is open to. -/
theorem nextEvent?_top (graph : Graph) {top : Frame} {below : List Frame}
    (stack : walk.stack = top :: below) :
    walk.nextEvent? graph top none = (walk.opening graph).head? := by
  cases leaf : walk.isLeaf graph top with
  | true => simp [nextEvent?, opening, stack, leaf]
  | false => simp [nextEvent?_none leaf, opening, stack, leaf]

/-- A walk with nothing on its agenda leaves all its frames. -/
theorem backtrack_of_agenda_eq_nil (stands : Stands graph walk walk.stack)
    (nothing : walk.agenda graph = []) :
    walk.backtrack graph none walk.stack = (walk.stack, none) := by
  simp only [agenda, List.append_eq_nil_iff, List.map_eq_nil_iff] at nothing
  obtain ⟨closed, nothingBelow⟩ := nothing
  cases stack : walk.stack with
  | nil => rfl
  | cons top below =>
    have next := nextEvent?_top graph stack
    rw [closed] at next
    simp only [backtrack, next, List.head?_nil]
    rw [stack] at stands
    cases stands with
    | root => rfl
    | via inside _ lineage =>
      rw [trail_eq, stack] at nothingBelow
      rw [Frame.event?, backtrack_of_later_eq_nil wellFormed inside lineage nothingBelow]

/-- A move with nothing on the agenda ends the walk. -/
theorem advance_of_agenda_eq_nil (stands : Stands graph walk walk.stack)
    (nothing : walk.agenda graph = []) :
    walk.advance graph = ({ walk with stack := [] }, ⟨walk.stack, none⟩) := by
  simp only [advance, backtrack_of_agenda_eq_nil wellFormed stands nothing]

/-- A move enters the first event of the agenda: the first one of the top frame where that is open,
and otherwise what the search finds below it. -/
theorem descends_of_agenda (stands : Stands graph walk walk.stack) {depth : Nat} {event : EventId}
    {rest : List (Nat × EventId)} (first : walk.agenda graph = (depth, event) :: rest) :
    ∃ popped stay, walk.Descends graph depth event rest popped stay := by
  cases stack : walk.stack with
  | nil => simp [agenda, opening, trail, stack, Graph.later] at first
  | cons top below =>
    have next := nextEvent?_top graph stack
    rw [agenda] at first
    cases opening : walk.opening graph with
    | cons found others =>
      rw [opening] at next first
      simp only [List.map_cons, List.cons_append, List.cons.injEq, Prod.mk.injEq] at first
      obtain ⟨⟨rfl, rfl⟩, rfl⟩ := first
      have isOpen : walk.isLeaf graph top = false := by
        cases leaf : walk.isLeaf graph top with
        | true => simp [Walk.opening, stack, leaf] at opening
        | false => rfl
      have listed : graph.enabledOutgoing (top.entity graph) = found :: others := by
        simpa [Walk.opening, stack, isOpen] using opening
      obtain ⟨enabled, source⟩ := wellFormed.mem_enabledOutgoing.mp
        (show found ∈ graph.enabledOutgoing (top.entity graph) by simp [listed])
      have increasing := wellFormed.enabledOutgoing_increasing (top.entity graph)
      have lineage : Lineage graph walk (top.entity graph) (top :: below) := by
        rw [stack] at stands
        cases stands with
        | root => exact .root rfl
        | via inside _ lineage =>
          exact .via inside rfl (by simpa [isLeaf, Frame.entity] using isOpen) lineage
      refine ⟨[], top :: below, stack, ?_, source ▸ lineage, enabled, ?_, ?_,
        .inl ⟨rfl, top, below, stack, isOpen⟩⟩
      · rw [stack]
        simp [backtrack, next]
      · rw [trail_eq, stack]
      · rw [Graph.later, source, listed, Graph.filter_head_lt (listed ▸ increasing), trail_eq,
          stack]
    | nil =>
      rw [opening] at next first
      rw [trail_eq, stack] at first
      rw [stack] at stands
      cases stands with
      | root => simp [Graph.later] at first
      | @via entered _ inside _ lineage =>
        obtain ⟨popped, stay, split, searched, lineage, enabled, depth, rest, last, place, order⟩ :=
          backtrack_of_later_eq_cons wellFormed inside lineage (by simpa using first)
        refine ⟨.via entered :: popped, stay, by rw [stack, split]; rfl, ?_, lineage, enabled,
          depth, rest, .inr ⟨last, ?_, order⟩⟩
        · rw [stack]
          simp [backtrack, next, Frame.event?, searched]
        · rcases place with rfl | place
          · exact List.mem_cons_self
          · exact List.mem_cons_of_mem _ place

end

/-- A move that enters an event does so from the frames it keeps. -/
theorem Descends.advance_eq {walk : Walk} {graph : Graph} {depth : Nat} {event : EventId}
    {rest : List (Nat × EventId)} {popped stay : List Frame}
    (descends : walk.Descends graph depth event rest popped stay) :
    walk.advance graph =
      (({ walk with stack := stay }.enter event (graph.target event)).1,
        ⟨popped, some ({ walk with stack := stay }.enter event (graph.target event)).2⟩) := by
  simp only [advance, descends.searched]

end Walk

end Retrace
