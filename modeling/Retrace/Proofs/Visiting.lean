import Retrace.Proofs.Checked.Forward
import Retrace.Proofs.Coverage
import Retrace.Proofs.Listing

/-!
# Visits of a recursive listing

`Graph.Visits` says by rules what a depth-first recursion lists: an entity is visited by going
through the enabled events that leave it, in recording order; each is listed, and before the next
one its target is visited, unless the target was seen before or the event lies at the bound. The
rules speak of sets of entities and of the events by their numbers, and neither of pending events
nor of adjacency lists. They are followed by one listing only (`Visits.unique`), and by the
executing recursion (`visits_listing`), which therefore ends in every graph. The main statement on
them is `Session.forward?_iff_listedBelow`: forward traces are what the rules list.

A mark on a line is about the lines before it. Without a bound it says that the target was met
before; with one, an event at the bound does not count as a meeting, since nothing is listed below
it (`Session.repeated_iff_met_above`).
-/
namespace Retrace.Graph

/-! ## The rules -/

/-- The enabled events that leave an entity, in recording order. -/
def leaving (graph : Graph) (entity : EntityId) : List EventId :=
  (List.range graph.numEvents).filter fun event =>
    graph.source event == entity && graph.isEnabled event

/-- A depth above the bound, if there is one: what is below an event at that depth is listed. -/
def IsAbove (bound : Option Nat) (depth : Nat) : Prop := ∀ limit ∈ bound, depth < limit

/-- Going through some events of one entity, all at one depth: when the entities `seen` were seen
before, this lists `lines`, and the entities `after` are seen by then. -/
inductive Visits (graph : Graph) (bound : Option Nat) :
    (depth : Nat) → (seen : Set EntityId) → (events : List EventId) → (lines : List ForwardLine) →
      (after : Set EntityId) → Prop
  /-- No event is left. -/
  | done {depth : Nat} {seen : Set EntityId} : Visits graph bound depth seen [] [] seen
  /-- The target was seen before, and is not visited again. -/
  | again {depth : Nat} {seen after : Set EntityId} {event : EventId} {rest : List EventId}
      {lines : List ForwardLine} :
      graph.target event ∈ seen →
      Visits graph bound depth seen rest lines after →
      Visits graph bound depth seen (event :: rest) (⟨depth, event, true⟩ :: lines) after
  /-- The target was not seen before, but nothing below the event is listed. -/
  | cut {depth : Nat} {seen after : Set EntityId} {event : EventId} {rest : List EventId}
      {lines : List ForwardLine} :
      graph.target event ∉ seen → ¬ IsAbove bound depth →
      Visits graph bound depth seen rest lines after →
      Visits graph bound depth seen (event :: rest) (⟨depth, event, false⟩ :: lines) after
  /-- The target was not seen before, and is visited before the other events. -/
  | visit {depth : Nat} {seen between after : Set EntityId} {event : EventId}
      {rest : List EventId} {below others : List ForwardLine} :
      graph.target event ∉ seen → IsAbove bound depth →
      Visits graph bound (depth + 1) (insert (graph.target event) seen)
        (graph.leaving (graph.target event)) below between →
      Visits graph bound depth between rest others after →
      Visits graph bound depth seen (event :: rest) (⟨depth, event, false⟩ :: (below ++ others))
        after

/-- What the rules list below an entity: at first it is the only one seen, and the events that leave
it lie at depth one. -/
def ListedBelow (graph : Graph) (bound : Option Nat) (entity : EntityId)
    (lines : List ForwardLine) : Prop :=
  ∃ after, graph.Visits bound 1 {entity} (graph.leaving entity) lines after

/-- A depth is cut off by a bound exactly when it is not above it. -/
theorem any_le_iff (bound : Option Nat) (depth : Nat) :
    bound.any (· ≤ depth) = true ↔ ¬ IsAbove bound depth := by
  cases bound <;> simp [IsAbove]

/-- The enabled events listed for an entity are those that leave it. -/
theorem WellFormed.enabledOutgoing_eq_leaving {graph : Graph} (wellFormed : graph.WellFormed)
    (entity : EntityId) : graph.enabledOutgoing entity = graph.leaving entity := by
  rw [enabledOutgoing, wellFormed.outgoing_eq, List.filter_filter, leaving]
  exact List.filter_congr fun event _ => Bool.and_comm _ _

/-- The rules list the same lines whichever way they are followed. -/
theorem Visits.unique {graph : Graph} {bound : Option Nat} {depth : Nat}
    {seen after after' : Set EntityId} {events : List EventId} {lines lines' : List ForwardLine}
    (first : graph.Visits bound depth seen events lines after)
    (second : graph.Visits bound depth seen events lines' after') :
    lines = lines' ∧ after = after' := by
  induction first generalizing lines' after' with
  | done =>
    cases second
    exact ⟨rfl, rfl⟩
  | again met _ ih =>
    cases second with
    | again _ others =>
      obtain ⟨rfl, rfl⟩ := ih others
      exact ⟨rfl, rfl⟩
    | cut new => exact absurd met new
    | visit new => exact absurd met new
  | cut new deep _ ih =>
    cases second with
    | again met => exact absurd met new
    | cut _ _ others =>
      obtain ⟨rfl, rfl⟩ := ih others
      exact ⟨rfl, rfl⟩
    | visit _ above => exact absurd above deep
  | visit new above _ _ ihBelow ihOthers =>
    cases second with
    | again met => exact absurd met new
    | cut _ deep => exact absurd above deep
    | visit _ _ below others =>
      obtain ⟨rfl, rfl⟩ := ihBelow below
      obtain ⟨rfl, rfl⟩ := ihOthers others
      exact ⟨rfl, rfl⟩

/-! ## The executing recursion -/

/-- The marks of an array say of every entity of a graph whether it is in a set. -/
def Notes (graph : Graph) (met : Array Bool) (seen : Set EntityId) : Prop :=
  ∀ entity < graph.numEntities, isMet met entity = true ↔ entity ∈ seen

/-- Marking an entity notes the set with the entity. -/
theorem Notes.insert {graph : Graph} {met : Array Bool} {seen : Set EntityId}
    (notes : graph.Notes met seen) {entity : EntityId} (new : isMet met entity = false) :
    graph.Notes (met.setIfInBounds entity true) (insert entity seen) := by
  intro other inside
  rw [isMet_setIfInBounds new, Bool.or_eq_true, beq_iff_eq, notes other inside,
    Set.mem_insert_iff]
  exact Or.comm

/-- At the start of a listing, only its entity is noted. -/
theorem notes_start {graph : Graph} {entity : EntityId} (inside : entity < graph.numEntities) :
    graph.Notes ((Array.replicate graph.numEntities false).setIfInBounds entity true) {entity} := by
  intro other bound
  rw [isMet_start inside bound, beq_iff_eq, Set.mem_singleton_iff]

section

variable {graph : Graph} (wellFormed : graph.WellFormed)
include wellFormed

/-- The recursion that executes follows the rules, and marks what is seen by the end. -/
theorem visits_listing (bound : Option Nat) (depth : Nat) {met : Array Bool} {seen : Set EntityId}
    {events : List EventId} (notes : graph.Notes met seen)
    (listed : ∀ event ∈ events, event < graph.numEvents) :
    ∃ after, graph.Visits bound depth seen events (graph.listing bound depth met events).lines
        after ∧
      graph.Notes (graph.listing bound depth met events).after after := by
  fun_induction listing graph bound depth met events generalizing seen
  case case1 => exact ⟨seen, .done, notes⟩
  case case2 depth met event rest target known others ih =>
    obtain ⟨inside, listed⟩ := List.forall_mem_cons.mp listed
    have old : target ∈ seen := (notes target (wellFormed.target_lt event inside)).mp known
    obtain ⟨after, visits, noted⟩ := ih notes listed
    exact ⟨after, .again old visits, noted⟩
  case case3 depth met event rest target new cut others ih =>
    obtain ⟨inside, listed⟩ := List.forall_mem_cons.mp listed
    have fresh : target ∉ seen := mt (notes target (wellFormed.target_lt event inside)).mpr new
    obtain ⟨after, visits, noted⟩ := ih notes listed
    exact ⟨after, .cut fresh ((any_le_iff bound depth).mp cut) visits, noted⟩
  case case4 depth met event rest target new going below others ihBelow _ ihOthers _ =>
    obtain ⟨inside, listed⟩ := List.forall_mem_cons.mp listed
    have fresh : target ∉ seen := mt (notes target (wellFormed.target_lt event inside)).mpr new
    have above : IsAbove bound depth := (any_le_iff bound depth).not_left.mp going
    have marked := notes.insert (Bool.eq_false_iff.mpr new)
    have leaves : ∀ other ∈ graph.enabledOutgoing target, other < graph.numEvents :=
      fun other leaves => lt_of_isEnabled (wellFormed.mem_enabledOutgoing.mp leaves).1
    obtain ⟨between, inner, notedBelow⟩ := ihBelow marked leaves
    obtain ⟨after, outer, noted⟩ := ihOthers notedBelow listed
    have same := wellFormed.enabledOutgoing_eq_leaving target
    have inner : graph.Visits bound (depth + 1) (insert target seen) (graph.leaving target)
        below.lines between := same ▸ inner
    exact ⟨after, .visit fresh above inner outer, noted⟩

/-- A forward trace is what the rules list, and they list nothing else. -/
theorem listedBelow_iff (bound : Option Nat) {entity : EntityId}
    (inside : entity < graph.numEntities) (lines : List ForwardLine) :
    graph.ListedBelow bound entity lines ↔ lines = graph.forward entity bound := by
  have leaves : ∀ event ∈ graph.enabledOutgoing entity, event < graph.numEvents :=
    fun event leaves => lt_of_isEnabled (wellFormed.mem_enabledOutgoing.mp leaves).1
  obtain ⟨after, visits, _⟩ :=
    visits_listing wellFormed bound 1 (notes_start inside) leaves
  rw [forward_eq_preorder, preorder]
  rw [wellFormed.enabledOutgoing_eq_leaving] at visits ⊢
  constructor
  · rintro ⟨after', other⟩
    exact (other.unique visits).1
  · rintro rfl
    exact ⟨after, visits⟩

end

/-! ## Marks -/

/-- The loop of a forward trace marks a line exactly when its target was met before the loop, or is
the target of an earlier line at a depth above the bound. An earlier line whose target was met
already, or that is cut off, is no reason for a mark. -/
theorem repeated_iff_of_forwardLoop {graph : Graph} {bound : Option Nat} {met : Array Bool}
    {pending : List (Nat × EventId)} {before rest : List ForwardLine} {line : ForwardLine}
    (split : graph.forwardLoop bound met pending = before ++ line :: rest) :
    line.repeated = true ↔ isMet met (graph.target line.event) = true ∨
      ∃ earlier ∈ before, graph.target earlier.event = graph.target line.event ∧
        IsAbove bound earlier.depth := by
  fun_induction forwardLoop graph bound met pending generalizing before
  case case1 => simp at split
  case case2 met depth event pending target known ih =>
    rcases List.cons_eq_append_iff.mp split with ⟨rfl, here⟩ | ⟨earlier, rfl, later⟩
    · obtain ⟨rfl, _⟩ := List.cons.inj here
      simpa using known
    · rw [ih later, List.exists_mem_cons_iff]
      constructor
      · exact Or.imp_right Or.inr
      · rintro (old | ⟨same, _⟩ | before)
        · exact .inl old
        · exact .inl (same ▸ known)
        · exact .inr before
  case case3 met depth event pending target new cut ih =>
    rcases List.cons_eq_append_iff.mp split with ⟨rfl, here⟩ | ⟨earlier, rfl, later⟩
    · obtain ⟨rfl, _⟩ := List.cons.inj here
      simpa using new
    · have deep := (any_le_iff bound depth).mp cut
      rw [ih later, List.exists_mem_cons_iff]
      simp only [deep, and_false, false_or]
  case case4 met depth event pending target new going ih =>
    have above : IsAbove bound depth := (any_le_iff bound depth).not_left.mp going
    rcases List.cons_eq_append_iff.mp split with ⟨rfl, here⟩ | ⟨earlier, rfl, later⟩
    · obtain ⟨rfl, _⟩ := List.cons.inj here
      simpa using new
    · rw [ih later, List.exists_mem_cons_iff, isMet_setIfInBounds (Bool.eq_false_iff.mpr new),
        Bool.or_eq_true, beq_iff_eq, or_assoc]
      simp only [above, and_true, eq_comm, target]

end Retrace.Graph

namespace Retrace.Session

/-- Of every entity there is a forward trace, down to any bound or to none, and it is what the
recursion lists below the entity and nothing else: the enabled events that leave an entity in
recording order, each followed by what is listed below its target unless the target was seen before,
in which case the event is marked, or the event lies at the bound. -/
theorem forward?_iff_listedBelow {session : Session} (reachable : session.Reachable)
    {entity : EntityId} (inside : entity < session.graph.numEntities) (bound : Option Nat) :
    ∃ lines, session.graph.forward? entity bound = some lines ∧
      ∀ listed, session.graph.ListedBelow bound entity listed ↔ listed = lines := by
  obtain ⟨past, traced⟩ := reachable.traced
  refine ⟨session.graph.forward entity bound, ?_, fun listed => ?_⟩
  · rw [Graph.forward?, if_neg (Nat.not_le.mpr inside)]
  · exact Graph.listedBelow_iff traced.wellFormed bound inside listed

/-- An entity is listed at the bound without what is below it, then visited, then marked. -/
theorem forward?_iff_listedBelow_bounded :
    let commands : List Command :=
      [.addEntity "a", .addEntity "b", .addEvent 0 1 .templateInstantiation none,
        .addEvent 1 2 .templateInstantiation none, .addEvent 0 2 .memoization none,
        .addEvent 2 0 .memoization none, .addEvent 2 2 .memoization none]
    let session := (Session.new "root" "int").run commands
    session.Reachable ∧ root < session.graph.numEntities ∧
      session.graph.ListedBelow (some 2) root
        [⟨1, 0, false⟩, ⟨2, 1, false⟩, ⟨1, 2, false⟩, ⟨2, 3, true⟩, ⟨2, 4, true⟩] := by
  intro commands session
  have reachable : session.Reachable := ⟨"root", "int", commands, rfl⟩
  have inside : root < session.graph.numEntities := by decide
  have graph : session.graph =
      ⟨#[⟨"root", #[0, 2], #[3]⟩, ⟨"a", #[1], #[0]⟩, ⟨"b", #[3, 4], #[1, 2, 4]⟩],
        #[⟨0, 1, .templateInstantiation, none, true⟩, ⟨1, 2, .templateInstantiation, none, true⟩,
          ⟨0, 2, .memoization, none, true⟩, ⟨2, 0, .memoization, none, true⟩,
          ⟨2, 2, .memoization, none, true⟩]⟩ := by decide
  obtain ⟨lines, found, listed⟩ := forward?_iff_listedBelow reachable inside (some 2)
  refine ⟨reachable, inside, (listed _).mpr ?_⟩
  rw [← Option.some_inj, ← found, graph]
  cbv

/-- A line of a forward trace is marked exactly when its target is the entity at which the trace
starts, or is the target of an earlier line at a depth above the bound. So without a bound the
target of any earlier line marks it. -/
theorem repeated_iff_met_above {session : Session} (reachable : session.Reachable)
    {entity : EntityId} (inside : entity < session.graph.numEntities) (bound : Option Nat)
    {before rest : List ForwardLine} {line : ForwardLine}
    (split : session.graph.forward? entity bound = some (before ++ line :: rest)) :
    line.repeated = true ↔ session.graph.target line.event = entity ∨
      ∃ earlier ∈ before, session.graph.target earlier.event = session.graph.target line.event ∧
        ∀ limit ∈ bound, earlier.depth < limit := by
  obtain ⟨past, traced⟩ := reachable.traced
  rw [Graph.forward?, if_neg (Nat.not_le.mpr inside), Option.some_inj] at split
  have listed : line ∈ session.graph.forward entity bound := by simp [split]
  have event_lt := (Checked.listable_forward traced.wellFormed entity bound line listed).event_lt
  have start := Graph.isMet_start inside (traced.wellFormed.target_lt line.event event_lt)
  rw [Graph.repeated_iff_of_forwardLoop split, start, beq_iff_eq]
  rfl

/-- Without a bound, the second of two events with one target is marked. -/
theorem repeated_iff_met_above_unbounded :
    let commands : List Command :=
      [.addEntity "a", .addEvent 0 1 .templateInstantiation none, .addEvent 0 1 .memoization none]
    let session := (Session.new "root" "int").run commands
    session.Reachable ∧ root < session.graph.numEntities ∧
      session.graph.forward? root none = some ([⟨1, 0, false⟩] ++ ⟨1, 1, true⟩ :: []) ∧
      ∃ earlier ∈ [(⟨1, 0, false⟩ : ForwardLine)],
        session.graph.target earlier.event = session.graph.target 1 := by
  intro commands session
  have reachable : session.Reachable := ⟨"root", "int", commands, rfl⟩
  have inside : root < session.graph.numEntities := by decide
  have split : session.graph.forward? root none =
      some ([⟨1, 0, false⟩] ++ ⟨1, 1, true⟩ :: []) := by cbv
  refine ⟨reachable, inside, split, ?_⟩
  rcases (repeated_iff_met_above reachable inside none split).mp rfl with start | met
  · revert start
    decide
  · obtain ⟨earlier, listed, same, _⟩ := met
    exact ⟨earlier, listed, same⟩

/-- It is not marked when the first event lies at the bound. -/
theorem not_repeated_of_cut :
    let commands : List Command :=
      [.addEntity "a", .addEvent 0 1 .templateInstantiation none, .addEvent 0 1 .memoization none]
    let session := (Session.new "root" "int").run commands
    let line : ForwardLine := ⟨1, 1, false⟩
    session.Reachable ∧
      session.graph.forward? root (some 1) = some ([⟨1, 0, false⟩] ++ line :: []) ∧
      ¬ (line.repeated = true ↔ session.graph.target line.event = root ∨
        ∃ earlier ∈ [(⟨1, 0, false⟩ : ForwardLine)],
          session.graph.target earlier.event = session.graph.target line.event) := by
  intro commands session line
  have split : session.graph.forward? root (some 1) =
      some ([⟨1, 0, false⟩] ++ line :: []) := by cbv
  exact ⟨⟨"root", "int", commands, rfl⟩, split, by decide⟩

end Retrace.Session
