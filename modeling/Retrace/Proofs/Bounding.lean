import Retrace.Proofs.Visiting

/-!
# Bounds of forward traces

A forward trace lists the enabled events that leave an expanded entity: the one at which it starts,
or the target of a line above the bound (`Graph.mem_forward_iff`). Each line stands at the end of a
route of enabled events that is as long as the line is deep (`Graph.exists_route`).

An entity is expanded where it is first met above the bound, and that need not be where it is
nearest. So a larger bound can lead the trace to an entity by a longer route, mark it there as met,
and cut off below it what a smaller bound still lists. This happens nowhere else
(`Session.forward?_lists_unless_cut`), and without a bound nothing is cut off.
-/
namespace Retrace.Graph

/-! ## Routes -/

/-- Enabled events that lead from one entity to another, the first one first. -/
def IsRoute (graph : Graph) (first : EntityId) (events : List EventId) (last : EntityId) : Prop :=
  graph.IsPath first events last ∧ ∀ event ∈ events, graph.isEnabled event = true

section

variable {graph : Graph} {first last : EntityId} {events : List EventId}

/-- A route of no events stays where it is. -/
theorem IsRoute.nil (graph : Graph) (entity : EntityId) : graph.IsRoute entity [] entity :=
  ⟨rfl, fun _ listed => nomatch listed⟩

/-- A route that starts with an event is the event and a route from its target. -/
theorem isRoute_cons {event : EventId} {rest : List EventId} :
    graph.IsRoute first (event :: rest) last ↔ graph.isEnabled event = true ∧
      graph.source event = first ∧ graph.IsRoute (graph.target event) rest last := by
  rw [IsRoute, IsPath, List.forall_mem_cons]
  constructor
  · rintro ⟨⟨_, leaves, path⟩, enabled, others⟩
    exact ⟨enabled, leaves, path, others⟩
  · rintro ⟨enabled, leaves, path, others⟩
    exact ⟨⟨lt_of_isEnabled enabled, leaves, path⟩, enabled, others⟩

/-- A route goes on with an enabled event that leaves its end. -/
theorem IsRoute.concat {event : EventId} (route : graph.IsRoute first events last)
    (enabled : graph.isEnabled event = true) (leaves : graph.source event = last) :
    graph.IsRoute first (events ++ [event]) (graph.target event) := by
  refine ⟨route.1.concat (lt_of_isEnabled enabled) leaves, fun other listed => ?_⟩
  rcases List.mem_append.mp listed with before | here
  · exact route.2 other before
  · exact List.mem_singleton.mp here ▸ enabled

/-- A route from where a property holds to where it does not has an event that leaves the property:
it holds at the source of the event and not at the target. -/
theorem IsRoute.exists_exit {property : EntityId → Prop} (route : graph.IsRoute first events last)
    (holds : property first) (fails : ¬ property last) :
    ∃ before event after, events = before ++ event :: after ∧
      graph.IsRoute first (before ++ [event]) (graph.target event) ∧
      graph.IsRoute (graph.target event) after last ∧
      property (graph.source event) ∧ ¬ property (graph.target event) := by
  induction events generalizing first with
  | nil =>
    have same : first = last := route.1
    exact absurd (same ▸ holds) fails
  | cons head rest ih =>
    obtain ⟨enabled, leaves, onward⟩ := isRoute_cons.mp route
    by_cases kept : property (graph.target head)
    · obtain ⟨before, event, after, split, prior, later, inside, outside⟩ := ih onward kept
      refine ⟨head :: before, event, after, by rw [split, List.cons_append], ?_, later, inside,
        outside⟩
      rw [List.cons_append]
      exact isRoute_cons.mpr ⟨enabled, leaves, prior⟩
    · refine ⟨[], head, rest, rfl, ?_, onward, leaves ▸ holds, kept⟩
      exact isRoute_cons.mpr ⟨enabled, leaves, .nil graph _⟩

end

/-! ## Lines of a bounded listing -/

section

variable {graph : Graph} {bound : Option Nat} {met : Array Bool} {pending : List (Nat × EventId)}

/-- The pending events are listed at their depths, in their order. -/
theorem pending_sublist_forwardLoop : pending.Sublist
    ((graph.forwardLoop bound met pending).map fun line => (line.depth, line.event)) := by
  fun_induction forwardLoop graph bound met pending
  case case1 => exact List.nil_sublist _
  case case2 ih => exact ih.cons_cons _
  case case3 ih => exact ih.cons_cons _
  case case4 ih => exact ((List.sublist_append_right _ _).trans ih).cons_cons _

/-- A bound cuts nothing off when no pending event can be that deep: as many levels lie below it as
there are entities to meet. -/
theorem forwardLoop_eq_unbounded {limit : Nat}
    (room : ∀ item ∈ pending, item.1 + numUnmet met ≤ limit) :
    graph.forwardLoop (some limit) met pending = graph.forwardLoop none met pending := by
  fun_induction forwardLoop graph none met pending
  case case1 => rw [forwardLoop]
  case case2 met depth event pending target known ih =>
    rw [forwardLoop, dif_pos known, ih (List.forall_mem_cons.mp room).2]
  case case3 cut _ => simp at cut
  case case4 met depth event pending target new going ih =>
    obtain ⟨own, later⟩ := List.forall_mem_cons.mp room
    have fewer := numUnmet_set_lt (Bool.eq_false_iff.mpr new)
    have shallow : ¬ (some limit).any (· ≤ depth) = true := by
      rw [Option.any_some, decide_eq_true_eq]
      omega
    rw [forwardLoop, dif_neg new, if_neg shallow, ih fun item inside => ?_]
    rcases List.mem_append.mp inside with below | after
    · obtain ⟨other, _, rfl⟩ := List.mem_map.mp below
      show depth + 1 + _ ≤ limit
      omega
    · have := later item after
      omega

end

/-- A bound of as many levels as there are entities cuts nothing off. -/
theorem forward_eq_unbounded {graph : Graph} {entity : EntityId} {limit : Nat}
    (inside : entity < graph.numEntities) (enough : graph.numEntities ≤ limit) :
    graph.forward entity (some limit) = graph.forward entity none := by
  have fewer : numUnmet ((Array.replicate graph.numEntities false).setIfInBounds entity true) <
      numUnmet (Array.replicate graph.numEntities false) :=
    numUnmet_set_lt (by simp [isMet, inside])
  have all : numUnmet (Array.replicate graph.numEntities false) = graph.numEntities := by
    simp [numUnmet, List.countP_replicate]
  refine forwardLoop_eq_unbounded fun item first => ?_
  obtain ⟨event, _, rfl⟩ := List.mem_map.mp first
  show 1 + _ ≤ limit
  omega

/-! ## Expanded entities -/

/-- The entities of which a forward trace lists the events: the one at which it starts, and the
targets of its lines above the bound. -/
def IsExpanded (graph : Graph) (bound : Option Nat) (entity other : EntityId) : Prop :=
  other = entity ∨
    ∃ line ∈ graph.forward entity bound, IsAbove bound line.depth ∧ graph.target line.event = other

section

variable {graph : Graph} (wellFormed : graph.WellFormed) {entity : EntityId} {bound : Option Nat}
include wellFormed

/-- A forward trace lists the enabled events that leave an expanded entity. -/
theorem mem_forward_iff (inside : entity < graph.numEntities) (event : EventId) :
    event ∈ (graph.forward entity bound).map ForwardLine.event ↔
      graph.isEnabled event = true ∧ graph.IsExpanded bound entity (graph.source event) := by
  have above (depth : Nat) : bound.any (· ≤ depth) = false ↔ IsAbove bound depth := by
    rw [← Bool.not_eq_true, any_le_iff, not_not]
  rw [IsExpanded, forward, mem_boundedLoop_iff wellFormed, map_snd_pending,
    wellFormed.mem_enabledOutgoing]
  simp only [above]
  constructor
  · rintro (⟨enabled, start⟩ | ⟨enabled, _, line, listed, high, enters⟩)
    · exact ⟨enabled, .inl start⟩
    · exact ⟨enabled, .inr ⟨line, listed, high, enters⟩⟩
  · rintro ⟨enabled, expanded⟩
    by_cases start : graph.source event = entity
    · exact .inl ⟨enabled, start⟩
    · refine .inr ⟨enabled, ?_, expanded.resolve_left start⟩
      rw [isMet_start inside (wellFormed.source_lt event (lt_of_isEnabled enabled))]
      exact beq_eq_false_iff_ne.mpr start

/-- A line of a forward trace is about an enabled event, and its depth is the length of a route from
the start of the trace to the source of the event, and one more for the event. -/
theorem exists_route {line : ForwardLine} (listed : line ∈ graph.forward entity bound) :
    graph.isEnabled line.event = true ∧
      ∃ events, graph.IsRoute entity events (graph.source line.event) ∧
        line.depth = events.length + 1 := by
  refine forwardLoop_line_induction wellFormed (motive := fun depth event =>
    graph.isEnabled event = true ∧ ∃ events, graph.IsRoute entity events (graph.source event) ∧
      depth = events.length + 1) (fun item first => ?_) ?_ line listed
  · obtain ⟨event, leaves, rfl⟩ := List.mem_map.mp first
    obtain ⟨enabled, origin⟩ := wellFormed.mem_enabledOutgoing.mp leaves
    exact ⟨enabled, [], origin ▸ .nil graph _, rfl⟩
  · rintro depth event other ⟨enabled, events, route, rfl⟩ _ marked origin
    refine ⟨marked, events ++ [event], origin ▸ route.concat enabled rfl, ?_⟩
    rw [List.length_append, List.length_singleton]

/-- No line lies below the bound, but the events at the start of a trace are listed whatever the
bound. -/
theorem depth_le_max {limit : Nat} {line : ForwardLine}
    (listed : line ∈ graph.forward entity (some limit)) : line.depth ≤ max limit 1 := by
  refine forwardLoop_line_induction wellFormed (motive := fun depth _ => depth ≤ max limit 1)
    (fun item first => ?_) (fun depth _ _ _ above _ _ => ?_) line listed
  · obtain ⟨event, _, rfl⟩ := List.mem_map.mp first
    exact Nat.le_max_right limit 1
  · rw [Option.any_some, decide_eq_false_iff_not] at above
    omega

/-- What one bound lists and another hides lies below a cut: on a route as long as the line that
lists it, the other trace comes to an entity that it enters, but only at the bound. -/
theorem exists_cut_of_hidden (inside : entity < graph.numEntities) {other : Option Nat}
    {line : ForwardLine} (listed : line ∈ graph.forward entity bound)
    (hidden : line.event ∉ (graph.forward entity other).map ForwardLine.event) :
    ∃ before event after, graph.IsRoute entity (before ++ [event]) (graph.target event) ∧
      graph.IsRoute (graph.target event) after (graph.source line.event) ∧
      before.length + after.length + 2 = line.depth ∧
      event ∈ (graph.forward entity other).map ForwardLine.event ∧
      ∀ entering ∈ graph.forward entity other,
        graph.target entering.event = graph.target event → ¬ IsAbove other entering.depth := by
  obtain ⟨enabled, events, route, deep⟩ := exists_route wellFormed listed
  have closed : ¬ graph.IsExpanded other entity (graph.source line.event) := fun expanded =>
    hidden ((mem_forward_iff wellFormed inside _).mpr ⟨enabled, expanded⟩)
  obtain ⟨before, event, after, rfl, prior, later, expanded, cut⟩ :=
    route.exists_exit (.inl rfl) closed
  have marked : graph.isEnabled event = true := route.2 event (by simp)
  refine ⟨before, event, after, prior, later, ?_, ?_, fun entering below same above => ?_⟩
  · rw [deep, List.length_append, List.length_cons]
    omega
  · exact (mem_forward_iff wellFormed inside event).mpr ⟨marked, expanded⟩
  · exact cut (.inr ⟨entering, below, above, same⟩)

/-- Without a bound everything is listed that is listed with one. -/
theorem mem_unbounded (inside : entity < graph.numEntities) {line : ForwardLine}
    (listed : line ∈ graph.forward entity bound) :
    line.event ∈ (graph.forward entity none).map ForwardLine.event := by
  by_contra hidden
  obtain ⟨_, event, _, _, _, _, entered, cut⟩ :=
    exists_cut_of_hidden wellFormed inside listed hidden
  obtain ⟨entering, below, same⟩ := List.mem_map.mp entered
  exact cut entering below (same ▸ rfl) fun limit bounded => nomatch bounded

end

end Retrace.Graph

namespace Retrace.Session

/-- What a bounded forward trace lists is listed without a bound. It is listed with any larger bound
too, except below a cut: on a route to the event as long as the line that lists it is deep, the
larger trace comes to an entity that it enters, but at its own bound and nowhere above. A bound of
at most two levels is too short for such a route, and a larger bound of as many levels as there are
entities cuts nothing off. -/
theorem forward?_lists_unless_cut {session : Session} (reachable : session.Reachable)
    {entity : EntityId} (inside : entity < session.graph.numEntities) {limit larger : Nat}
    (le : limit ≤ larger) :
    let graph := session.graph
    ∃ short long all, graph.forward? entity (some limit) = some short ∧
      graph.forward? entity (some larger) = some long ∧ graph.forward? entity none = some all ∧
      (∀ line ∈ short, line.event ∈ all.map ForwardLine.event) ∧
      (∀ line ∈ short, line.event ∉ long.map ForwardLine.event →
        ∃ before event after, graph.IsRoute entity (before ++ [event]) (graph.target event) ∧
          graph.IsRoute (graph.target event) after (graph.source line.event) ∧
          before.length + after.length + 2 = line.depth ∧ line.depth ≤ limit ∧
          event ∈ long.map ForwardLine.event ∧
          ∀ entering ∈ long, graph.target entering.event = graph.target event →
            entering.depth = larger) ∧
      (limit ≤ 2 → ∀ line ∈ short, line.event ∈ long.map ForwardLine.event) ∧
      (graph.numEntities ≤ larger → long = all) := by
  intro graph
  obtain ⟨past, traced⟩ := reachable.traced
  have wellFormed : graph.WellFormed := traced.wellFormed
  have found (bound : Option Nat) :
      graph.forward? entity bound = some (graph.forward entity bound) := by
    rw [Graph.forward?, if_neg (Nat.not_le.mpr inside)]
  have hidden : ∀ line ∈ graph.forward entity (some limit),
      line.event ∉ (graph.forward entity (some larger)).map ForwardLine.event →
      ∃ before event after, graph.IsRoute entity (before ++ [event]) (graph.target event) ∧
        graph.IsRoute (graph.target event) after (graph.source line.event) ∧
        before.length + after.length + 2 = line.depth ∧ line.depth ≤ limit ∧
        event ∈ (graph.forward entity (some larger)).map ForwardLine.event ∧
        ∀ entering ∈ graph.forward entity (some larger),
          graph.target entering.event = graph.target event → entering.depth = larger := by
    intro line listed missing
    obtain ⟨before, event, after, prior, later, deep, entered, cut⟩ :=
      Graph.exists_cut_of_hidden wellFormed inside listed missing
    have most := Graph.depth_le_max wellFormed listed
    refine ⟨before, event, after, prior, later, deep, by omega, entered,
      fun entering below same => ?_⟩
    have least : ¬ entering.depth < larger := fun above =>
      cut entering below same fun bound is => Option.some.inj is ▸ above
    have bounded := Graph.depth_le_max wellFormed below
    omega
  refine ⟨_, _, _, found _, found _, found _, fun line listed => ?_, hidden,
    fun few line listed => ?_, fun enough => ?_⟩
  · exact Graph.mem_unbounded wellFormed inside listed
  · by_contra missing
    obtain ⟨before, event, after, prior, _, deep, shallow, _, cut⟩ := hidden line listed missing
    have none : before = [] := List.eq_nil_of_length_eq_zero (by omega)
    subst none
    obtain ⟨enabled, leaves, _⟩ := Graph.isRoute_cons.mp prior
    have first : (1, event) ∈ (graph.enabledOutgoing entity).map (1, ·) :=
      List.mem_map_of_mem (wellFormed.mem_enabledOutgoing.mpr ⟨enabled, leaves⟩)
    obtain ⟨entering, below, same⟩ :=
      List.mem_map.mp (Graph.pending_sublist_forwardLoop.subset first)
    obtain ⟨top, rfl⟩ := Prod.mk.inj same
    have deepest := cut entering below rfl
    omega
  · exact Graph.forward_eq_unbounded inside enough

/-- A chain of three events, an event that cuts it short, and two events below their common target:
the first entity below the root is three levels deep by the chain and one level deep without it. -/
def detour : List Command :=
  [.addEntity "a", .addEntity "b", .addEntity "x", .addEntity "y",
    .addEvent 0 1 .templateInstantiation none, .addEvent 1 2 .templateInstantiation none,
    .addEvent 2 3 .templateInstantiation none, .addEvent 0 3 .templateInstantiation none,
    .addEvent 3 4 .templateInstantiation none, .addEvent 4 4 .templateInstantiation none]

/-- With one level more, the trace goes into the common target by the chain and is cut off below
it. -/
theorem forward?_detour :
    let session := (Session.new "root" "int").run detour
    session.graph.forward? root (some 3) = some [⟨1, 0, false⟩, ⟨2, 1, false⟩, ⟨3, 2, false⟩,
        ⟨1, 3, false⟩, ⟨2, 4, false⟩, ⟨3, 5, true⟩] ∧
      session.graph.forward? root (some 4) = some [⟨1, 0, false⟩, ⟨2, 1, false⟩, ⟨3, 2, false⟩,
        ⟨4, 4, false⟩, ⟨1, 3, true⟩] := by
  intro session
  have graph : session.graph =
      ⟨#[⟨"root", #[0, 3], #[]⟩, ⟨"a", #[1], #[0]⟩, ⟨"b", #[2], #[1]⟩, ⟨"x", #[4], #[2, 3]⟩,
          ⟨"y", #[5], #[4, 5]⟩],
        #[⟨0, 1, .templateInstantiation, none, true⟩, ⟨1, 2, .templateInstantiation, none, true⟩,
          ⟨2, 3, .templateInstantiation, none, true⟩, ⟨0, 3, .templateInstantiation, none, true⟩,
          ⟨3, 4, .templateInstantiation, none, true⟩,
          ⟨4, 4, .templateInstantiation, none, true⟩]⟩ := by decide
  rw [graph]
  constructor
  · cbv
  · cbv

/-- What is hidden in it lies below the target of an event that leaves an entity of the chain, and
is listed without a bound. -/
theorem forward?_lists_unless_cut_detour :
    let session := (Session.new "root" "int").run detour
    session.Reachable ∧ root < session.graph.numEntities ∧ 3 ≤ 4 ∧
      (∃ all, session.graph.forward? root none = some all ∧ 5 ∈ all.map ForwardLine.event) ∧
      ∃ before event after, session.graph.IsRoute root (before ++ [event])
          (session.graph.target event) ∧
        session.graph.IsRoute (session.graph.target event) after (session.graph.source 5) ∧
        before.length + after.length = 1 ∧ event ∈ [0, 1, 2, 4, 3] := by
  intro session
  have reachable : session.Reachable := ⟨"root", "int", detour, rfl⟩
  have inside : root < session.graph.numEntities := by decide
  obtain ⟨short, long, all, bounded, wider, unbounded, listed, hidden, _, _⟩ :=
    forward?_lists_unless_cut reachable inside (show 3 ≤ 4 by decide)
  rw [forward?_detour.1, Option.some_inj] at bounded
  rw [forward?_detour.2, Option.some_inj] at wider
  subst bounded wider
  have last : (⟨3, 5, true⟩ : ForwardLine) ∈ ([⟨1, 0, false⟩, ⟨2, 1, false⟩, ⟨3, 2, false⟩,
      ⟨1, 3, false⟩, ⟨2, 4, false⟩, ⟨3, 5, true⟩] : List ForwardLine) := by decide
  obtain ⟨before, event, after, prior, later, deep, _, entered, _⟩ :=
    hidden _ last (by decide)
  refine ⟨reachable, inside, by decide, ⟨all, unbounded, listed _ last⟩, before, event, after,
    prior, later, ?_, entered⟩
  exact Nat.add_right_cancel deep

/-- The larger bound hides an event that the smaller one lists. -/
theorem forward?_larger_hides :
    let session := (Session.new "root" "int").run detour
    session.Reachable ∧ root < session.graph.numEntities ∧
      ∃ limit larger short long, limit ≤ larger ∧
        session.graph.forward? root (some limit) = some short ∧
        session.graph.forward? root (some larger) = some long ∧
        5 ∈ short.map ForwardLine.event ∧ 5 ∉ long.map ForwardLine.event := by
  intro session
  exact ⟨⟨"root", "int", detour, rfl⟩, by decide, 3, 4, _, _, by decide, forward?_detour.1,
    forward?_detour.2, by decide, by decide⟩

end Retrace.Session
