import Retrace.Forward

/-!
# Recursive listings

`Graph.listing` is the depth-first listing written as a recursion: it goes through the events of an
entity in recording order, lists each, and lists what is below its target before it goes on, unless
the target was met before or lies at the bound. `Graph.forwardLoop` keeps the events still to be
listed on a list of its own; `forwardLoop_append` shows that it goes through them as the recursion
does, and `forward_eq_preorder` that a forward trace is the recursive listing.
-/
namespace Retrace.Graph

/-- What a recursion lists: its lines, and the entities met by the end. It forgets no entity, so
that what follows it is no further from the end of the recursion. -/
structure Listing (met : Array Bool) where
  /-- The lines, in order. -/
  lines : List ForwardLine
  /-- The entities met before or on the way. -/
  after : Array Bool
  /-- Every entity met before is still met. -/
  numUnmet_le : numUnmet after ≤ numUnmet met

/-- List some events of one entity, each followed by what is below its target when the target is met
for the first time and lies above the bound. -/
def listing (graph : Graph) (bound : Option Nat) (depth : Nat) (met : Array Bool) :
    List EventId → Listing met
  | [] => ⟨[], met, Nat.le_refl _⟩
  | event :: rest =>
    let target := graph.target event
    if known : isMet met target = true then
      let others := graph.listing bound depth met rest
      ⟨⟨depth, event, true⟩ :: others.lines, others.after, others.numUnmet_le⟩
    else if bound.any (· ≤ depth) then
      let others := graph.listing bound depth met rest
      ⟨⟨depth, event, false⟩ :: others.lines, others.after, others.numUnmet_le⟩
    else
      let below := graph.listing bound (depth + 1) (met.setIfInBounds target true)
        (graph.enabledOutgoing target)
      let others := graph.listing bound depth below.after rest
      ⟨⟨depth, event, false⟩ :: (below.lines ++ others.lines), others.after,
        Nat.le_of_lt (Nat.lt_of_le_of_lt (Nat.le_trans others.numUnmet_le below.numUnmet_le)
          (numUnmet_set_lt (by simpa using known)))⟩
termination_by events => (numUnmet met, events.length)
decreasing_by
  · exact Prod.Lex.right _ (by simp)
  · exact Prod.Lex.right _ (by simp)
  · exact Prod.Lex.left _ _ (numUnmet_set_lt (by simpa using known))
  · exact Prod.Lex.left _ _ (Nat.lt_of_le_of_lt below.numUnmet_le
      (numUnmet_set_lt (by simpa using known)))

/-- The depth-first listing below an entity: the entity itself is met, and its events lie at
depth one. -/
def preorder (graph : Graph) (entity : EntityId) (bound : Option Nat) : List ForwardLine :=
  (graph.listing bound 1 ((Array.replicate graph.numEntities false).setIfInBounds entity true)
    (graph.enabledOutgoing entity)).lines

/-- The loop over the pending events first lists what the recursion lists of those of one entity,
and goes on with the others from the entities met by then. -/
theorem forwardLoop_append (graph : Graph) (bound : Option Nat) (depth : Nat) (met : Array Bool)
    (events : List EventId) (pending : List (Nat × EventId)) :
    graph.forwardLoop bound met (events.map (depth, ·) ++ pending) =
      (graph.listing bound depth met events).lines ++
        graph.forwardLoop bound (graph.listing bound depth met events).after pending := by
  fun_induction listing graph bound depth met events generalizing pending with
  | case1 depth met => rfl
  | case2 depth met event rest target known others ih =>
    rw [List.map_cons, List.cons_append, forwardLoop, dif_pos known, ih]
    rfl
  | case3 depth met event rest target new cut others ih =>
    rw [List.map_cons, List.cons_append, forwardLoop, dif_neg new, if_pos cut, ih]
    rfl
  | case4 depth met event rest target new going below others ihBelow _ ihOthers _ =>
    rw [List.map_cons, List.cons_append, forwardLoop, dif_neg new, if_neg going, ihBelow, ihOthers,
      List.cons_append, List.append_assoc]

/-- A forward trace is the recursive listing. -/
theorem forward_eq_preorder (graph : Graph) (entity : EntityId) (bound : Option Nat) :
    graph.forward entity bound = graph.preorder entity bound := by
  have listed := graph.forwardLoop_append bound 1
    ((Array.replicate graph.numEntities false).setIfInBounds entity true)
    (graph.enabledOutgoing entity) []
  rw [List.append_nil, forwardLoop, List.append_nil] at listed
  exact listed

end Retrace.Graph
