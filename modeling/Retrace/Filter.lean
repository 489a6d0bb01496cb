import Retrace.Graph
import Retrace.Text

/-!
# Filters

A filter describes a class of events that a session is to pass over. `Filter.holds` reads it as a
condition on the events of a graph, the form in which a graph disables them.
-/
namespace Retrace

/-- A class of events. -/
inductive Filter where
  /-- Events of a kind. -/
  | kind (kind : Kind)
  /-- Events whose target has a name that contains the fragment. -/
  | targetContains (fragment : String)
  /-- Events whose source has a name that contains the fragment. -/
  | sourceContains (fragment : String)
  /-- Events whose point of instantiation is in the file. -/
  | file (name : String)
  /-- Events without a point of instantiation, or those with one. -/
  | withoutLocation (wanted : Bool)
  /-- The listed events. -/
  | oneOf (events : List EventId)
  /-- Events from an entity to itself, or all others. -/
  | selfLoop (wanted : Bool)
  /-- Events whose target is entered by more than `count` events. -/
  | fanInOver (count : Nat)
  /-- Every event while exactly `count` events are disabled, else none. -/
  | disabledIs (count : Nat)
  /-- Every `count`-th of the enabled events. -/
  | every (count : Nat)
  /-- Events outside a class. -/
  | not (filter : Filter)
  /-- Events in each of the classes. -/
  | all (filters : List Filter)
  /-- Events in some of the classes. -/
  | any (filters : List Filter)
  deriving Repr

namespace Filter

/-- Place of an event among the enabled events of a graph, counted from one. -/
def ordinal (graph : Graph) (event : EventId) : Nat :=
  (List.range event.succ).countP graph.isEnabled

mutual

/-- Whether an event of the graph is in the class. -/
def holds (graph : Graph) (event : EventId) : Filter → Bool
  | kind wanted => graph.events[event]?.any (·.kind == wanted)
  | targetContains fragment => Text.contains (graph.name (graph.target event)) fragment
  | sourceContains fragment => Text.contains (graph.name (graph.source event)) fragment
  | file name => (graph.location? event).any (·.file == name)
  | withoutLocation wanted => (graph.location? event).isNone == wanted
  | oneOf events => events.contains event
  | selfLoop wanted => (graph.source event == graph.target event) == wanted
  | fanInOver count => decide (count < (graph.incoming (graph.target event)).length)
  | disabledIs count => graph.numDisabled == count
  | every count => ordinal graph event % count == 0
  | not filter => !holds graph event filter
  | all filters => holdsAll graph event filters
  | any filters => holdsAny graph event filters

/-- Whether an event is in each of the classes. -/
def holdsAll (graph : Graph) (event : EventId) : List Filter → Bool
  | [] => true
  | filter :: filters => holds graph event filter && holdsAll graph event filters

/-- Whether an event is in some of the classes. -/
def holdsAny (graph : Graph) (event : EventId) : List Filter → Bool
  | [] => false
  | filter :: filters => holds graph event filter || holdsAny graph event filters

end

end Filter

end Retrace
