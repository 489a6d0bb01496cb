import Retrace.Markup.Element
import Retrace.TraceError

/-!
# Templight traces

A templight trace is a markup document whose events begin and end instantiations:

```text
<Trace>
  <TemplateBegin>
    <Kind>TemplateInstantiation</Kind>
    <Context context="fib&lt;10&gt;"/>
    <PointOfInstantiation>main.cpp|3|12</PointOfInstantiation>
  </TemplateBegin>
  <TemplateEnd>
    <Kind>TemplateInstantiation</Kind>
  </TemplateEnd>
</Trace>
```

Its records follow the nesting of the events. A context is declared as an entity where it first
begins, numbered from one, and each begin is an instantiation from the innermost open begin, or
from the root, to the entity of its context. An end closes the innermost open begin and names the
same kind. Begins may be left open, since a compilation that fails stops in the middle.

The document itself is read by a library for markup, which is a parameter.
-/
namespace Retrace.Templight

open Markup (Element)

/-- The parts of a point of instantiation: file, line and column with bars between them, and
blanks around them. The file may contain bars. -/
def location? (text : List Char) : Option Location := do
  let (front, column) ← Text.splitLast '|' (Text.trim text)
  let (file, line) ← Text.splitLast '|' front
  some ⟨String.ofList file, ← Text.signed? line, ← Text.signed? column⟩

/-- The kind that an event names. -/
def readKind (event : Element) : Except TraceError Kind :=
  match (event.child? "Kind").bind (·.text?) with
  | none => .error (.templight (.withoutKind event.label) event.position)
  | some text =>
    let name := String.ofList (Text.trim text)
    match Kind.ofName? name with
    | some kind => .ok kind
    | none => .error (.unknownKind name event.position)

/-- The context of a begin. -/
def readContext (event : Element) : Except TraceError String :=
  match (event.child? "Context").bind (·.attribute? "context") with
  | some context => .ok context
  | none => .error (.templight .withoutContext event.position)

/-- The point of instantiation of a begin, when it has one. -/
def readLocation (event : Element) : Except TraceError (Option Location) :=
  match event.child? "PointOfInstantiation" with
  | none => .ok none
  | some element =>
    let text := element.text?.getD []
    match location? text with
    | some location => .ok (some location)
    | none => .error (.templight (.malformedLocation (String.ofList text)) element.position)

/-- The beginning of an instantiation. -/
structure Begin where
  /-- Why the entity is instantiated. -/
  kind : Kind
  /-- Name of the entity. -/
  context : String
  /-- The code that asked for it. -/
  location : Option Location
  deriving DecidableEq, Repr

/-- The parts of a begin. -/
def readBegin (event : Element) : Except TraceError Begin := do
  let kind ← readKind event
  let context ← readContext event
  let location ← readLocation event
  .ok ⟨kind, context, location⟩

/-- How far a trace is lowered to records. -/
structure Lowering where
  /-- The contexts seen, in the order of their first begins. -/
  contexts : List String := []
  /-- The entities and kinds of the open begins, the innermost first. -/
  pending : List (LocalId × Kind) := []
  deriving DecidableEq, Repr

namespace Lowering

/-- The records of a begin at `position`, and the lowering after it. -/
def enter (lowering : Lowering) (begun : Begin) (position : Position) :
    List (Placed Record) × Lowering :=
  let source := (lowering.pending.head?.map (·.1)).getD rootId
  match lowering.contexts.idxOf? begun.context with
  | some index =>
    let target := index + 1
    ([⟨.instantiation source target begun.kind begun.location, position⟩],
      { lowering with pending := (target, begun.kind) :: lowering.pending })
  | none =>
    let target := lowering.contexts.length + 1
    ([⟨.entity target begun.context, position⟩,
        ⟨.instantiation source target begun.kind begun.location, position⟩],
      { contexts := lowering.contexts ++ [begun.context]
        pending := (target, begun.kind) :: lowering.pending })

/-- The records of an event, and the lowering after it. -/
def event (lowering : Lowering) (event : Element) :
    Except TraceError (List (Placed Record) × Lowering) :=
  if event.label = "TemplateBegin" then
    (readBegin event).map (lowering.enter · event.position)
  else if event.label = "TemplateEnd" then
    match lowering.pending with
    | [] => .error (.unbalancedEnd event.position)
    | (_, begun) :: pending =>
      match readKind event with
      | .error fault => .error fault
      | .ok ended =>
        if ended = begun then .ok ([], { lowering with pending })
        else .error (.templight (.mismatchedEnd ended begun) event.position)
  else .error (.templight (.unexpectedElement event.label) event.position)

/-- The records of events, in order. -/
def events (lowering : Lowering) : List Element → Except TraceError (List (Placed Record))
  | [] => .ok []
  | first :: rest => do
    let (records, lowering) ← lowering.event first
    let others ← lowering.events rest
    .ok (records ++ others)

end Lowering

/-- The records of the outermost element of a trace. -/
def lower (trace : Element) : Except TraceError (List (Placed Record)) :=
  if trace.label = "Trace" then Lowering.events {} trace.children
  else .error (.templight (.notATrace trace.label) trace.position)

/-- The records of a templight trace, each with the position of its event. -/
def readRecords (text : String) (reader : Markup.Reader := .nesting) :
    Except TraceError (List (Placed Record)) :=
  match reader.document? text with
  | none => .error .markup
  | some trace => lower trace

end Retrace.Templight
