import Retrace.Session

/-!
# Forward traces

What an entity goes on to instantiate: the enabled events below it in depth-first pre-order. The
events below an entity are listed only where it is first met; later lines that reach it are marked
as repeated. A bound on the depth stops the listing from going below it.

`Graph.forward` goes through the events still to be listed, kept on a list of their own, and notes
which entities it has met. A cache keeps the last listing for a session and makes a new one only
when the number of steps, the current event or the number of disabled events has changed.
-/
namespace Retrace

/-- One line of a forward trace. -/
structure ForwardLine where
  /-- Distance from the entity at which the trace starts, counted from one. -/
  depth : Nat
  /-- The event listed. -/
  event : EventId
  /-- Whether the events below its target are listed elsewhere. -/
  repeated : Bool
  deriving DecidableEq, Repr

namespace Graph

/-- Whether an entity needs no listing of its own: it was met, or it is no entity. -/
def isMet (met : Array Bool) (entity : EntityId) : Bool := met[entity]?.getD true

/-- Number of entities not yet met. -/
def numUnmet (met : Array Bool) : Nat := met.toList.countP (!·)

/-- Meeting an entity leaves fewer to meet. -/
theorem numUnmet_set_lt {met : Array Bool} {entity : EntityId} (h : isMet met entity = false) :
    numUnmet (met.setIfInBounds entity true) < numUnmet met := by
  obtain ⟨met⟩ := met
  simp only [isMet, List.getElem?_toArray] at h
  simp only [numUnmet, List.setIfInBounds_toArray]
  induction met generalizing entity with
  | nil => simp at h
  | cons first rest ih =>
    cases entity with
    | zero =>
      simp only [List.getElem?_cons_zero, Option.getD_some] at h
      simp [h]
    | succ entity =>
      simp only [List.getElem?_cons_succ] at h
      have := ih h
      simp only [List.set_cons_succ, List.countP_cons]
      omega

/-- List the pending events in order, each followed by the events below its target. -/
def forwardLoop (graph : Graph) (bound : Option Nat) (met : Array Bool) :
    List (Nat × EventId) → List ForwardLine
  | [] => []
  | (depth, event) :: pending =>
    let target := graph.target event
    if _met : isMet met target = true then
      ⟨depth, event, true⟩ :: forwardLoop graph bound met pending
    else if bound.any (· ≤ depth) then
      ⟨depth, event, false⟩ :: forwardLoop graph bound met pending
    else
      ⟨depth, event, false⟩ ::
        forwardLoop graph bound (met.setIfInBounds target true)
          ((graph.enabledOutgoing target).map (depth + 1, ·) ++ pending)
termination_by pending => (numUnmet met, pending.length)
decreasing_by
  · exact Prod.Lex.right _ (by simp)
  · exact Prod.Lex.right _ (by simp)
  · exact Prod.Lex.left _ _ (numUnmet_set_lt (by simpa using _met))

/-- The enabled events below an entity, down to a depth of `bound` if there is one. -/
def forward (graph : Graph) (entity : EntityId) (bound : Option Nat) : List ForwardLine :=
  graph.forwardLoop bound ((Array.replicate graph.numEntities false).setIfInBounds entity true)
    ((graph.enabledOutgoing entity).map (1, ·))

/-- The forward trace of an entity, when there is such an entity. -/
def forward? (graph : Graph) (entity : EntityId) (bound : Option Nat) :
    Option (List ForwardLine) :=
  if graph.numEntities ≤ entity then none else some (graph.forward entity bound)

end Graph

/-- What a cached forward trace was made for: number of steps, current event and number of
disabled events. -/
structure ForwardKey where
  /-- Number of moves in the log. -/
  steps : Nat
  /-- Event of the top frame. -/
  event : Option EventId
  /-- Number of disabled events. -/
  disabled : Nat
  deriving DecidableEq, Repr

/-- The key of a session. -/
def Session.forwardKey (session : Session) : ForwardKey :=
  ⟨session.steps, session.currentEvent?, session.graph.numDisabled⟩

/-- The last forward trace made. -/
structure ForwardCache where
  /-- What it was made for; nothing before the first trace. -/
  key : Option ForwardKey := none
  /-- Its lines. -/
  lines : List ForwardLine := []
  /-- How many traces were made. -/
  rebuilds : Nat := 0
  deriving DecidableEq, Repr

/-- A cache that serves a session: the same one if its key is the key of the session, else one
with a new trace of the current entity. -/
def ForwardCache.refresh (cache : ForwardCache) (session : Session) : ForwardCache :=
  if cache.key = some session.forwardKey then cache
  else
    { key := some session.forwardKey
      lines := session.graph.forward session.currentEntity none
      rebuilds := cache.rebuilds + 1 }

end Retrace
