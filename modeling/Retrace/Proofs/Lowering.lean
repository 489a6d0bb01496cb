import Mathlib.Data.List.Forall2
import Retrace.Proofs.Building
import Retrace.Proofs.Nesting

/-!
# Lowering of traces

A trace of begins and ends is lowered to records exactly when its events nest: no prefix ends more
than it begins, and every end has the kind of the begin that it closes (`Nests`). The records are
then those that `Lists` describes: an instantiation for every begin, from the entity of the begin
that encloses it to the entity of its own context, and a declaration of every context right before
the first instantiation that needs it (`readRecords_lists`).

The lowering goes through the events once. `Lowered` relates what it keeps to the events so far:
the contexts are those of the begins, and the pending begins are the open ones. One event either
keeps the relation and adds the records that `Written` adds, or breaks the nesting and is an error
(`Lowered.event`); the run of all events follows by induction (`Lowered.events`).
-/
namespace Retrace.Templight

open Markup (Element)

/-! ## What elements say -/

/-- An element names a kind: the text of the first `Kind` in it is the name, up to blanks around
it. -/
def NamesKind (event : Element) (kind : Kind) : Prop :=
  ∃ element chars, event.child? "Kind" = some element ∧ element.text? = some chars ∧
    String.ofList (Text.trim chars) = kind.name

/-- An element gives a context: it is an attribute of the first `Context` in the element. -/
def GivesContext (event : Element) (context : String) : Prop :=
  ∃ element, event.child? "Context" = some element ∧ element.attribute? "context" = some context

/-- An element gives a point of instantiation, which may be missing. -/
def GivesLocation (event : Element) : Option Location → Prop
  | none => event.child? "PointOfInstantiation" = none
  | some location => ∃ element, event.child? "PointOfInstantiation" = some element ∧
      location? (element.text?.getD []) = some location

/-- What an element of a trace says, when it is an event of the format. -/
inductive Says : Element → Occurrence → Prop
  /-- A begin has a kind, a context and, unless that is missing, a point of instantiation. -/
  | begun {event : Element} {begun : Begin} : event.label = "TemplateBegin" →
      NamesKind event begun.kind → GivesContext event begun.context →
      GivesLocation event begun.location → Says event (.begun begun)
  /-- An end has a kind. -/
  | ended {event : Element} {kind : Kind} : event.label = "TemplateEnd" → NamesKind event kind →
      Says event (.ended kind)

/-- A kind is found by its name and by no other text. -/
theorem ofName?_eq_some_iff {name : String} {kind : Kind} :
    Kind.ofName? name = some kind ↔ name = kind.name := by
  constructor
  · intro found
    have same := List.find?_some found
    exact (beq_iff_eq.mp same).symm
  · rintro rfl
    exact Kind.ofName?_name kind

/-- The kind of an event is read when the event names one. -/
theorem readKind_eq_ok_iff {event : Element} {kind : Kind} :
    readKind event = .ok kind ↔ NamesKind event kind := by
  unfold readKind NamesKind
  cases own : event.child? "Kind" with
  | none => simp
  | some element =>
    cases text : element.text? with
    | none => simp [text]
    | some chars =>
      cases found : Kind.ofName? (String.ofList (Text.trim chars)) <;>
        simp [text, found, ← ofName?_eq_some_iff]

/-- The context of an event is read when the event gives one. -/
theorem readContext_eq_ok_iff {event : Element} {context : String} :
    readContext event = .ok context ↔ GivesContext event context := by
  unfold readContext GivesContext
  cases own : event.child? "Context" with
  | none => simp
  | some element => cases value : element.attribute? "context" <;> simp [value]

/-- The point of instantiation of an event is read when it is missing or well formed. -/
theorem readLocation_eq_ok_iff {event : Element} {location : Option Location} :
    readLocation event = .ok location ↔ GivesLocation event location := by
  unfold readLocation
  cases own : event.child? "PointOfInstantiation" with
  | none => cases location <;> simp [GivesLocation, own]
  | some element =>
    cases found : location? (element.text?.getD []) <;> cases location <;>
      simp [GivesLocation, own, found]

/-- A begin is read when its three parts are. -/
theorem readBegin_eq_ok_iff {event : Element} {begun : Begin} :
    readBegin event = .ok begun ↔ NamesKind event begun.kind ∧ GivesContext event begun.context ∧
      GivesLocation event begun.location := by
  rw [← readKind_eq_ok_iff, ← readContext_eq_ok_iff, ← readLocation_eq_ok_iff]
  unfold readBegin
  obtain ⟨kind, context, location⟩ := begun
  cases readKind event with
  | error => simp [bind, Except.bind]
  | ok =>
    cases readContext event with
    | error => simp [bind, Except.bind]
    | ok => cases readLocation event <;> simp [bind, Except.bind]

/-- What an element says, when it says something. -/
def occurrence? (element : Element) : Option Occurrence :=
  if element.label = "TemplateBegin" then
    match readBegin element with
    | .ok begun => some (.begun begun)
    | .error _ => none
  else if element.label = "TemplateEnd" then
    match readKind element with
    | .ok kind => some (.ended kind)
    | .error _ => none
  else none

/-- What an element says is computed. -/
theorem occurrence?_eq_some_iff {element : Element} {event : Occurrence} :
    occurrence? element = some event ↔ Says element event := by
  unfold occurrence?
  constructor
  · intro found
    split_ifs at found with begins ends
    · split at found
      · rename_i begun read
        obtain rfl := Option.some.inj found
        obtain ⟨kind, context, location⟩ := readBegin_eq_ok_iff.mp read
        exact .begun begins kind context location
      · contradiction
    · split at found
      · rename_i kind read
        obtain rfl := Option.some.inj found
        exact .ended ends (readKind_eq_ok_iff.mp read)
      · contradiction
  · intro said
    cases said with
    | begun label kind context location =>
      rw [if_pos label, readBegin_eq_ok_iff.mpr ⟨kind, context, location⟩]
    | ended label kind =>
      have other : element.label ≠ "TemplateBegin" := by rw [label]; decide
      rw [if_neg other, if_pos label, readKind_eq_ok_iff.mpr kind]

/-- What elements say is computed one by one. -/
theorem forall₂_said_iff {elements : List Element} {events : List Occurrence} :
    List.Forall₂ Says elements events ↔ elements.map occurrence? = events.map some := by
  induction elements generalizing events with
  | nil => cases events <;> simp
  | cons element elements ih => cases events <;> simp [ih, occurrence?_eq_some_iff]

/-- A text that `reader` reads is a trace whose elements say some events. -/
def Tells (reader : Markup.Reader) (text : String) (events : List Occurrence) : Prop :=
  ∃ trace, reader.document? text = some trace ∧ trace.label = "Trace" ∧
    List.Forall₂ Says trace.children events

/-- What a text tells can be computed. -/
theorem tells_iff {reader : Markup.Reader} {text : String} {events : List Occurrence} :
    Tells reader text events ↔ (reader.document? text).map (fun trace =>
      (trace.label, trace.children.map occurrence?)) = some ("Trace", events.map some) := by
  simp only [Tells, Option.map_eq_some_iff, Prod.mk.injEq, forall₂_said_iff]

/-- A text is a trace of some events at most. -/
theorem Tells.unique {reader : Markup.Reader} {text : String} {events others : List Occurrence}
    (tells : Tells reader text events) (again : Tells reader text others) : events = others := by
  rw [tells_iff] at tells again
  have same := Option.some.inj (tells.symm.trans again)
  exact List.map_injective_iff.mpr (fun _ _ => Option.some.inj) (Prod.mk.inj same).2

/-! ## Contexts -/

/-- The contexts of events, in the order of their first begins. -/
def contexts (events : List Occurrence) : List String :=
  ((begins events).map Begin.context).eraseDups

/-- The number of the entity of a context: its place among the contexts, counted from one. -/
def number (events : List Occurrence) (context : String) : LocalId :=
  (contexts events).idxOf context + 1

/-- An end brings no context. -/
@[simp] theorem contexts_ended (events : List Occurrence) (kind : Kind) :
    contexts (events ++ [.ended kind]) = contexts events := by
  simp [contexts]

/-- A context that is known is not listed again. -/
theorem contexts_known {events : List Occurrence} {begun : Begin}
    (known : begun.context ∈ contexts events) :
    contexts (events ++ [.begun begun]) = contexts events := by
  have listed : begun.context ∈ (begins events).map Begin.context := List.mem_eraseDups.mp known
  rw [contexts, begins_append, List.map_append, List.eraseDups_append, List.removeAll]
  rw [begins_begun, List.map_cons, List.filter_cons_of_neg (by simpa using listed)]
  exact List.append_nil _

/-- A new context is listed last. -/
theorem contexts_new {events : List Occurrence} {begun : Begin}
    (new : begun.context ∉ contexts events) :
    contexts (events ++ [.begun begun]) = contexts events ++ [begun.context] := by
  have unlisted : begun.context ∉ (begins events).map Begin.context :=
    fun listed => new (List.mem_eraseDups.mpr listed)
  rw [contexts, begins_append, List.map_append, List.eraseDups_append, List.removeAll]
  rw [begins_begun, List.map_cons, List.filter_cons_of_pos (by simpa using unlisted)]
  rfl

/-- Contexts stay known. -/
theorem mem_contexts_append {events : List Occurrence} {context : String}
    (known : context ∈ contexts events) (more : List Occurrence) :
    context ∈ contexts (events ++ more) := by
  rw [contexts, begins_append, List.map_append, List.eraseDups_append]
  exact List.mem_append_left _ known

/-- Contexts are numbered once and for all. -/
theorem number_append {events : List Occurrence} {context : String}
    (known : context ∈ contexts events) (more : List Occurrence) :
    number (events ++ more) context = number events context := by
  unfold number
  rw [contexts, begins_append, List.map_append, List.eraseDups_append]
  exact congrArg (· + 1) (List.idxOf_append_of_mem known)

/-- A new context has the next number. -/
theorem number_new {events : List Occurrence} {begun : Begin}
    (new : begun.context ∉ contexts events) :
    number (events ++ [.begun begun]) begun.context = (contexts events).length + 1 := by
  rw [number, contexts_new new, List.idxOf_append_of_notMem new, List.idxOf_cons_self]

/-- The context of an enclosing begin is known. -/
theorem Encloses.known {events : List Occurrence} {outer : Begin}
    (encloses : Encloses events outer) : outer.context ∈ contexts events := by
  obtain ⟨before, between, rfl, -⟩ := encloses
  exact List.mem_eraseDups.mpr (List.mem_map_of_mem (by simp))

/-! ## Events that nest -/

/-- Every end has the kind of the begin that it closes, which is the last one with balanced events
between. -/
def KindsAgree (events : List Occurrence) : Prop :=
  ∀ before begun between kind later,
    events = before ++ .begun begun :: between ++ .ended kind :: later → Balanced between →
      kind = begun.kind

/-- The begins and ends of a trace nest. -/
structure Nests (events : List Occurrence) : Prop where
  /-- Every end closes a begin. -/
  proper : Proper events
  /-- It has the kind of the begin. -/
  agree : KindsAgree events

/-- Where a list with one more element is split at an element, that is the last one, or the list is
split there. -/
theorem append_singleton_eq {α : Type} {list front back : List α} {last element : α}
    (split : list ++ [last] = front ++ element :: back) :
    (list = front ∧ last = element ∧ back = []) ∨
      ∃ rest, back = rest ++ [last] ∧ list = front ++ element :: rest := by
  rcases List.eq_nil_or_concat' back with rfl | ⟨rest, other, rfl⟩
  · obtain ⟨rfl, same⟩ := List.append_inj' split rfl
    exact .inl ⟨rfl, List.singleton_inj.mp same, rfl⟩
  · rw [← List.cons_append, ← List.append_assoc] at split
    obtain ⟨rfl, same⟩ := List.append_inj' split rfl
    exact .inr ⟨rest, by rw [List.singleton_inj.mp same], rfl⟩

/-- The empty list of events nests. -/
theorem nests_nil : Nests [] := by
  refine ⟨proper_nil, fun before begun between kind later split => ?_⟩
  simp at split

namespace Nests

variable {events : List Occurrence} {stack : List (Nat × Begin)}

/-- The first ones of events that nest do so. -/
theorem of_append {more : List Occurrence} (nests : Nests (events ++ more)) : Nests events := by
  refine ⟨nests.proper.of_prefix (List.prefix_append _ _), ?_⟩
  rintro before begun between kind later rfl balanced
  exact nests.agree before begun between kind (later ++ more) (by simp) balanced

/-- Another begin leaves the events nested. -/
theorem begun (nests : Nests events) (begun : Begin) : Nests (events ++ [.begun begun]) := by
  refine ⟨nests.proper.append (proper_begun begun), ?_⟩
  intro before outer between kind later split balanced
  rcases append_singleton_eq split with ⟨-, other, -⟩ | ⟨rest, -, split⟩
  · contradiction
  · exact nests.agree before outer between kind rest split balanced

/-- Another end leaves the events nested when it has the kind of the innermost open begin. -/
theorem ended {top : Nat × Begin} (nests : Nests events) (opened : Open events (top :: stack)) :
    Nests (events ++ [.ended top.2.kind]) := by
  refine ⟨(opened.pop _).proper, ?_⟩
  intro before begun between kind later split balanced
  rcases append_singleton_eq split with ⟨rfl, same, -⟩ | ⟨rest, -, split⟩
  · obtain rfl := Occurrence.ended.inj same
    obtain ⟨index, rest, same⟩ := opened.of_encloses ⟨before, between, rfl, balanced⟩
    rw [(List.cons.inj same).1]
  · exact nests.agree before begun between kind rest split balanced

/-- Events that nest with another end have an open begin of its kind. -/
theorem open_of_ended {kind : Kind} (nests : Nests (events ++ [.ended kind]))
    (opened : Open events stack) : ∃ top rest, stack = top :: rest ∧ top.2.kind = kind := by
  cases opened with
  | none balanced =>
    have all := nests.proper.le
    have closed := balanced.length_eq
    simp only [ends_append, begins_append, ends_ended, begins_ended, ends_nil, begins_nil,
      List.length_append, List.length_cons, List.length_nil] at all
    omega
  | one outer begun balanced =>
    exact ⟨_, _, rfl, (nests.agree _ begun _ kind [] rfl balanced).symm⟩

end Nests

/-! ## Records -/

/-- The number of the entity from which an instantiation starts that begins after the events
`past`: that of the begin that encloses it, or that of the root. -/
inductive Source (events past : List Occurrence) : LocalId → Prop
  /-- A begin encloses it. -/
  | inside {outer : Begin} : Encloses past outer → Source events past (number events outer.context)
  /-- No begin does. -/
  | outside : (∀ outer, ¬ Encloses past outer) → Source events past rootId

/-- The records of events, event by event. -/
inductive Written : List Occurrence → List Record → Prop
  /-- No events make no records. -/
  | nil : Written [] []
  /-- The begin of a known context is an instantiation. -/
  | known {past : List Occurrence} {made : List Record} {begun : Begin} {source : LocalId}
      (written : Written past made) (known : begun.context ∈ contexts past)
      (starts : Source past past source) :
      Written (past ++ [.begun begun])
        (made ++ [.instantiation source (number past begun.context) begun.kind begun.location])
  /-- The begin of a new context is a declaration and an instantiation. -/
  | new {past : List Occurrence} {made : List Record} {begun : Begin} {source : LocalId}
      (written : Written past made) (new : begun.context ∉ contexts past)
      (starts : Source past past source) :
      Written (past ++ [.begun begun])
        (made ++ [.entity ((contexts past).length + 1) begun.context,
          .instantiation source ((contexts past).length + 1) begun.kind begun.location])
  /-- An end is no record. -/
  | ended {past : List Occurrence} {made : List Record} (written : Written past made)
      (kind : Kind) : Written (past ++ [.ended kind]) made

/-- The open begins tell where an instantiation starts. -/
theorem Open.source {past : List Occurrence} {stack : List (Nat × Begin)}
    (opened : Open past stack) :
    Source past past ((stack.head?.map fun top => number past top.2.context).getD rootId) := by
  cases stack with
  | nil =>
    refine .outside fun outer encloses => ?_
    obtain ⟨index, rest, same⟩ := opened.of_encloses encloses
    contradiction
  | cons top stack => exact .inside opened.encloses

/-- The contexts of open begins are known. -/
theorem Open.known {past : List Occurrence} {stack : List (Nat × Begin)}
    (opened : Open past stack) : ∀ top ∈ stack, top.2.context ∈ contexts past := by
  induction opened with
  | none => simp
  | @one before between stack outer begun balanced ih =>
    refine List.forall_mem_cons.mpr ⟨Encloses.known ⟨_, _, rfl, balanced⟩, fun top inside => ?_⟩
    exact mem_contexts_append (ih top inside) _

/-- How far events are lowered. -/
structure Lowered (past : List Occurrence) (lowering : Lowering) : Prop where
  /-- The contexts are those of the events. -/
  contexts_eq : lowering.contexts = contexts past
  /-- The pending begins are the open ones. -/
  pending_eq : ∃ stack, Open past stack ∧
    lowering.pending = stack.map fun top => (number past top.2.context, top.2.kind)

/-- A begin is lowered to what is written of it. -/
theorem Lowered.enter {past : List Occurrence} {lowering : Lowering}
    (lowered : Lowered past lowering) (begun : Begin) (position : Position) :
    Lowered (past ++ [.begun begun]) (lowering.enter begun position).2 ∧
      ∀ made, Written past made → Written (past ++ [.begun begun])
        (made ++ (lowering.enter begun position).1.map Placed.value) := by
  obtain ⟨contexts_eq, stack, opened, pending_eq⟩ := lowered
  have starts : Source past past ((lowering.pending.head?.map (·.1)).getD rootId) := by
    rw [pending_eq, List.head?_map, Option.map_map]
    exact opened.source
  have kept : lowering.pending = stack.map fun top =>
      (number (past ++ [.begun begun]) top.2.context, top.2.kind) := by
    rw [pending_eq]
    refine List.map_congr_left fun top inside => ?_
    rw [number_append (opened.known top inside)]
  simp only [Lowering.enter, contexts_eq]
  cases found : (contexts past).idxOf? begun.context with
  | some index =>
    have known : begun.context ∈ contexts past := by
      rw [← List.isSome_idxOf?, found]
      rfl
    have place : number past begun.context = index + 1 := by
      rw [number, List.idxOf_eq_getD_idxOf?, found]
      rfl
    dsimp only
    refine ⟨⟨(contexts_known known).symm, _, opened.push begun, ?_⟩, fun made written => ?_⟩
    · rw [List.map_cons, number_append known, place, kept]
    · rw [← place]
      exact .known written known starts
  | none =>
    have new : begun.context ∉ contexts past := List.idxOf?_eq_none_iff.mp found
    dsimp only
    refine ⟨⟨(contexts_new new).symm, _, opened.push begun, ?_⟩, fun made written => ?_⟩
    · rw [List.map_cons, number_new new, kept]
    · exact .new written new starts

/-- The innermost open begin is closed by an end. -/
theorem Lowered.leave {past : List Occurrence} {lowering : Lowering} {stack : List (Nat × Begin)}
    {top : Nat × Begin} (contexts_eq : lowering.contexts = contexts past)
    (opened : Open past (top :: stack)) (kind : Kind) :
    Lowered (past ++ [.ended kind]) { lowering with
      pending := stack.map fun top => (number past top.2.context, top.2.kind) } := by
  refine ⟨contexts_eq.trans (contexts_ended past kind).symm, stack, opened.pop kind, ?_⟩
  refine List.map_congr_left fun lower inside => ?_
  rw [number, number, contexts_ended]

/-- An event is lowered to what is written of it when the events still nest, and is an error
otherwise. -/
theorem Lowered.event {past : List Occurrence} {lowering : Lowering} {element : Element}
    {event : Occurrence} (lowered : Lowered past lowering) (nests : Nests past)
    (said : Says element event) :
    (∃ records next, lowering.event element = .ok (records, next) ∧ Nests (past ++ [event]) ∧
      Lowered (past ++ [event]) next ∧
      ∀ made, Written past made → Written (past ++ [event]) (made ++ records.map Placed.value)) ∨
    ((∃ fault, lowering.event element = .error fault) ∧ ¬ Nests (past ++ [event])) := by
  cases said with
  | @begun begun label kind context location =>
    have read : readBegin element = .ok begun := readBegin_eq_ok_iff.mpr ⟨kind, context, location⟩
    obtain ⟨entered, writes⟩ := lowered.enter begun element.position
    refine .inl ⟨_, _, ?_, nests.begun begun, entered, writes⟩
    rw [Lowering.event, if_pos label, read]
    rfl
  | @ended kind label named =>
    obtain ⟨contexts_eq, stack, opened, pending_eq⟩ := lowered
    have other : element.label ≠ "TemplateBegin" := by rw [label]; decide
    have read : readKind element = .ok kind := readKind_eq_ok_iff.mpr named
    rw [Lowering.event, if_neg other, if_pos label, pending_eq]
    cases stack with
    | nil =>
      refine .inr ⟨⟨_, rfl⟩, fun nested => ?_⟩
      obtain ⟨_, _, same, _⟩ := nested.open_of_ended opened
      contradiction
    | cons top stack =>
      simp only [List.map_cons, read]
      by_cases same : kind = top.2.kind
      · subst same
        rw [if_pos rfl]
        exact .inl ⟨[], _, rfl, nests.ended opened, .leave contexts_eq opened _,
          fun made written => by simpa using written.ended _⟩
      · rw [if_neg same]
        refine .inr ⟨⟨_, rfl⟩, fun nested => ?_⟩
        obtain ⟨_, _, split, agree⟩ := nested.open_of_ended opened
        exact same (by rw [(List.cons.inj split).1, agree])

/-- Events are lowered to what is written of them when they nest, and are an error otherwise. -/
theorem Lowered.events {past later : List Occurrence} {lowering : Lowering}
    {elements : List Element} (said : List.Forall₂ Says elements later)
    (lowered : Lowered past lowering) (nests : Nests past) :
    (∃ records, lowering.events elements = .ok records ∧ Nests (past ++ later) ∧
      ∀ made, Written past made → Written (past ++ later) (made ++ records.map Placed.value)) ∨
    ((∃ fault, lowering.events elements = .error fault) ∧ ¬ Nests (past ++ later)) := by
  induction said generalizing past lowering with
  | nil =>
    refine .inl ⟨[], rfl, by simpa using nests, fun made written => ?_⟩
    simpa using written
  | @cons element event elements later first _ ih =>
    rw [Lowering.events, List.append_cons]
    rcases lowered.event nests first with
      ⟨records, next, taken, nests, lowered, writes⟩ | ⟨⟨fault, failed⟩, broken⟩
    · rw [taken]
      rcases ih lowered nests with ⟨others, going, nests, more⟩ | ⟨⟨fault, failed⟩, broken⟩
      · refine .inl ⟨records ++ others, ?_, nests, fun made written => ?_⟩
        · simp only [bind, Except.bind, going]
        · rw [List.map_append, ← List.append_assoc]
          exact more _ (writes made written)
      · refine .inr ⟨⟨fault, ?_⟩, broken⟩
        simp only [bind, Except.bind, failed]
    · rw [failed]
      exact .inr ⟨⟨fault, rfl⟩, fun nested => broken nested.of_append⟩

/-! ## What the records are -/

/-- Whether a record is an instantiation. -/
def isInstantiation : Record → Bool
  | .instantiation .. => true
  | .entity .. | .result _ => false

/-- The instantiations among records, in order. -/
def instantiations (records : List Record) : List Record := records.filter isInstantiation

/-- The instantiations of more records come after those of the first ones. -/
@[simp] theorem instantiations_append (records more : List Record) :
    instantiations (records ++ more) = instantiations records ++ instantiations more :=
  List.filter_append ..

/-- A declaration is no instantiation. -/
@[simp] theorem instantiations_entity (id : LocalId) (name : String) (records : List Record) :
    instantiations (.entity id name :: records) = instantiations records := rfl

/-- An instantiation is one of its own. -/
@[simp] theorem instantiations_instantiation (source target : LocalId) (kind : Kind)
    (location : Option Location) (records : List Record) :
    instantiations (.instantiation source target kind location :: records) =
      .instantiation source target kind location :: instantiations records := rfl

/-- The empty list of records has no instantiations. -/
@[simp] theorem instantiations_nil : instantiations [] = [] := rfl

/-- Among records there is the instantiation of a begin that comes after the events `past`: at the
place of the begin among the begins, from the entity of the begin that encloses it to that of its
context, and with its kind and location. -/
def Instantiates (events past : List Occurrence) (begun : Begin) (records : List Record) : Prop :=
  ∃ source, Source events past source ∧
    (instantiations records)[(begins past).length]? =
      some (.instantiation source (number events begun.context) begun.kind begun.location)

/-- Records are those of events that nest. -/
structure Lists (events : List Occurrence) (records : List Record) : Prop where
  /-- There is one instantiation for each begin. -/
  length_eq : (instantiations records).length = (begins events).length
  /-- It is that of the begin. -/
  instantiates : ∀ past begun later, events = past ++ .begun begun :: later →
    Instantiates events past begun records
  /-- The contexts are declared once each, in the order of their first begins and with the numbers
  from one on. -/
  declarations_eq : (Record.declarations records).map Prod.swap = (contexts events).zipIdx 1
  /-- A declaration stands right before an instantiation of its number, the first one. -/
  declared : ∀ front id name back, records = front ++ .entity id name :: back →
    (∀ source kind location, .instantiation source id kind location ∉ front) ∧
      ∃ source kind location rest, back = .instantiation source id kind location :: rest
  /-- There is no result. -/
  results_eq : Record.results records = []

/-- The number of a known context stands for one of the entities. -/
theorem number_le {events : List Occurrence} {context : String}
    (known : context ∈ contexts events) : number events context ≤ (contexts events).length :=
  List.idxOf_lt_length_of_mem known

/-- An instantiation starts from the root or from an entity that is numbered. -/
theorem Source.le {events : List Occurrence} {source : LocalId}
    (starts : Source events events source) : source ≤ (contexts events).length := by
  cases starts with
  | inside encloses => exact number_le encloses.known
  | outside => exact Nat.zero_le _

/-- An instantiation starts from the same entity when more events come. -/
theorem Source.append {events past : List Occurrence} {source : LocalId}
    (starts : Source events past source) (inside : past <+: events) (more : List Occurrence) :
    Source (events ++ more) past source := by
  cases starts with
  | outside none => exact .outside none
  | @inside outer encloses =>
    have known : outer.context ∈ contexts events := by
      obtain ⟨rest, rfl⟩ := inside
      exact mem_contexts_append encloses.known rest
    rw [← number_append known more]
    exact .inside encloses

/-- The instantiation of a begin stays what it is. -/
theorem Instantiates.append {events past later : List Occurrence} {begun : Begin}
    {records : List Record} (instantiates : Instantiates events past begun records)
    (split : events = past ++ .begun begun :: later) (more : List Occurrence)
    (others : List Record) : Instantiates (events ++ more) past begun (records ++ others) := by
  obtain ⟨source, starts, place⟩ := instantiates
  have known : begun.context ∈ contexts events := by
    rw [split, contexts, List.mem_eraseDups]
    exact List.mem_map_of_mem (by simp)
  refine ⟨source, starts.append ⟨_, split.symm⟩ more, ?_⟩
  rw [number_append known, instantiations_append, List.getElem?_append_left, place]
  exact (List.getElem?_eq_some_iff.mp place).1

namespace Written

variable {past : List Occurrence} {made : List Record}

/-- The declarations are those of the contexts, numbered from one. -/
theorem declarations_eq (written : Written past made) :
    (Record.declarations made).map Prod.swap = (contexts past).zipIdx 1 := by
  induction written with
  | nil => rfl
  | known written known starts ih =>
    rw [contexts_known known, ← ih]
    simp [Record.declarations, Record.declaration?]
  | new written new starts ih =>
    rw [contexts_new new, List.zipIdx_append, ← ih, Nat.add_comm 1]
    simp [Record.declarations, Record.declaration?]
  | ended written kind ih => rw [contexts_ended, ih]

/-- The numbers that can be used after the records are those up to the number of contexts. -/
theorem numbers_eq (written : Written past made) :
    Record.numbers made = List.range ((contexts past).length + 1) := by
  have swapped := congrArg (List.map Prod.snd) written.declarations_eq
  rw [List.map_map, List.zipIdx_map_snd] at swapped
  have firsts : (Record.declarations made).map Prod.fst =
      List.range' 1 (contexts past).length := swapped
  rw [Record.numbers, firsts, List.range_eq_range', List.range'_succ]
  rfl

/-- The numbers that can be used after the records go up to the number of contexts. -/
theorem mem_numbers_iff (written : Written past made) (id : LocalId) :
    id ∈ Record.numbers made ↔ id ≤ (contexts past).length := by
  rw [written.numbers_eq, List.mem_range, Nat.lt_succ_iff]

/-- The ends of instantiations are the root and the entities declared. -/
theorem le_of_mem (written : Written past made) {source target : LocalId} {kind : Kind}
    {location : Option Location} (listed : .instantiation source target kind location ∈ made) :
    source ≤ (contexts past).length ∧ target ≤ (contexts past).length := by
  induction written with
  | nil => simp at listed
  | known written known starts ih =>
    rw [contexts_known known]
    rcases List.mem_append.mp listed with early | last
    · exact ih early
    · obtain ⟨rfl, rfl, -, -⟩ := Record.instantiation.inj (List.mem_singleton.mp last)
      exact ⟨starts.le, number_le known⟩
  | new written new starts ih =>
    rw [contexts_new new, List.length_append, List.length_singleton]
    rcases List.mem_append.mp listed with early | last
    · exact ⟨Nat.le_succ_of_le (ih early).1, Nat.le_succ_of_le (ih early).2⟩
    · simp only [List.mem_cons, reduceCtorEq, false_or, List.not_mem_nil, or_false] at last
      obtain ⟨rfl, rfl, -, -⟩ := Record.instantiation.inj last
      exact ⟨Nat.le_succ_of_le starts.le, Nat.le_refl _⟩
  | ended written kind ih =>
    rw [contexts_ended]
    exact ih listed

/-- No record is a result. -/
theorem results_eq (written : Written past made) : Record.results made = [] := by
  induction written with
  | nil => rfl
  | known _ _ _ ih => rw [Record.results_append, ih]; rfl
  | new _ _ _ ih => rw [Record.results_append, ih]; rfl
  | ended _ _ ih => exact ih

/-- There is an instantiation for each begin. -/
theorem length_eq (written : Written past made) :
    (instantiations made).length = (begins past).length := by
  induction written with
  | nil => rfl
  | known _ _ _ ih => simp [ih]
  | new _ _ _ ih => simp [ih]
  | ended _ _ ih => simp [ih]

/-- A declaration stands right before the first instantiation of its number. -/
theorem declared (written : Written past made) {front back : List Record} {id : LocalId}
    {name : String} (split : made = front ++ .entity id name :: back) :
    (∀ source kind location, .instantiation source id kind location ∉ front) ∧
      ∃ source kind location rest, back = .instantiation source id kind location :: rest := by
  induction written generalizing back with
  | nil => simp at split
  | known written known starts ih =>
    rcases append_singleton_eq split with ⟨-, other, -⟩ | ⟨rest, rfl, inside⟩
    · contradiction
    · obtain ⟨fresh, source, kind, location, more, rfl⟩ := ih inside
      exact ⟨fresh, source, kind, location, _, rfl⟩
  | @new past made begun source written new starts ih =>
    rw [List.append_cons] at split
    rcases append_singleton_eq split with ⟨-, other, -⟩ | ⟨rest, rfl, inside⟩
    · contradiction
    rcases append_singleton_eq inside with ⟨rfl, same, rfl⟩ | ⟨rest, rfl, earlier⟩
    · obtain ⟨rfl, rfl⟩ := Record.entity.inj same
      refine ⟨fun source kind location listed => ?_, _, _, _, [], rfl⟩
      exact Nat.not_succ_le_self _ (written.le_of_mem listed).2
    · obtain ⟨fresh, source, kind, location, more, rfl⟩ := ih earlier
      exact ⟨fresh, source, kind, location, _, rfl⟩
  | ended written kind ih => exact ih split

/-- There is the instantiation of each begin. -/
theorem instantiates (written : Written past made) {before later : List Occurrence} {begun : Begin}
    (split : past = before ++ .begun begun :: later) : Instantiates past before begun made := by
  induction written generalizing later with
  | nil => simp at split
  | @known past made last source written known starts ih =>
    rcases append_singleton_eq split with ⟨rfl, same, -⟩ | ⟨rest, rfl, earlier⟩
    · obtain rfl := Occurrence.begun.inj same
      refine ⟨source, starts.append List.prefix_rfl _, ?_⟩
      rw [number_append known, instantiations_append, ← written.length_eq]
      exact List.getElem?_concat_length
    · exact (ih earlier).append earlier _ _
  | @new past made last source written new starts ih =>
    rcases append_singleton_eq split with ⟨rfl, same, -⟩ | ⟨rest, rfl, earlier⟩
    · obtain rfl := Occurrence.begun.inj same
      refine ⟨source, starts.append List.prefix_rfl _, ?_⟩
      rw [number_new new, instantiations_append, ← written.length_eq]
      exact List.getElem?_concat_length
    · exact (ih earlier).append earlier _ _
  | ended written kind ih =>
    rcases append_singleton_eq split with ⟨-, other, -⟩ | ⟨rest, rfl, earlier⟩
    · contradiction
    · have kept := (ih earlier).append earlier [.ended kind] []
      rwa [List.append_nil] at kept

/-- What is written of events lists them. -/
theorem lists (written : Written past made) : Lists past made where
  length_eq := written.length_eq
  instantiates _ _ _ split := written.instantiates split
  declarations_eq := written.declarations_eq
  declared _ _ _ _ split := written.declared split
  results_eq := written.results_eq

end Written

/-! ## Traces -/

section

variable {reader : Markup.Reader} {text : String} {events : List Occurrence}

/-- A trace is read as what is written of its events when these nest, and is an error otherwise. -/
theorem Tells.readRecords_written (tells : Tells reader text events) :
    (∃ records, readRecords text reader = .ok records ∧ Nests events ∧
      Written events (records.map Placed.value)) ∨
    ((∃ fault, readRecords text reader = .error fault) ∧ ¬ Nests events) := by
  obtain ⟨trace, document, label, said⟩ := tells
  have start : Lowered [] {} := ⟨rfl, [], .none balanced_nil, rfl⟩
  rw [readRecords, document]
  dsimp only
  rw [lower, if_pos label]
  rcases start.events said nests_nil with ⟨records, came, nests, writes⟩ | failed
  · exact .inl ⟨records, came, nests, writes [] .nil⟩
  · exact .inr failed

/-- An element that is lowered says something. -/
theorem exists_said_of_event {lowering : Lowering} {element : Element}
    {found : List (Placed Record) × Lowering} (lowered : lowering.event element = .ok found) :
    ∃ event, Says element event := by
  unfold Lowering.event at lowered
  split_ifs at lowered with begins ends
  · cases read : readBegin element with
    | error fault =>
      rw [read] at lowered
      contradiction
    | ok begun =>
      obtain ⟨kind, context, location⟩ := readBegin_eq_ok_iff.mp read
      exact ⟨_, .begun begins kind context location⟩
  · split at lowered
    · contradiction
    · cases read : readKind element with
      | error fault =>
        rw [read] at lowered
        contradiction
      | ok kind => exact ⟨.ended kind, .ended ends (readKind_eq_ok_iff.mp read)⟩

/-- Elements that are lowered say something. -/
theorem exists_said {lowering : Lowering} {elements : List Element}
    {records : List (Placed Record)} (lowered : lowering.events elements = .ok records) :
    ∃ events, List.Forall₂ Says elements events := by
  induction elements generalizing lowering records with
  | nil => exact ⟨[], .nil⟩
  | cons element elements ih =>
    rw [Lowering.events] at lowered
    cases first : lowering.event element with
    | error fault =>
      rw [first] at lowered
      contradiction
    | ok found =>
      rw [first] at lowered
      obtain ⟨event, said⟩ := exists_said_of_event first
      cases rest : found.2.events elements with
      | error fault =>
        simp only [bind, Except.bind, rest] at lowered
        contradiction
      | ok others =>
        obtain ⟨events, others⟩ := ih rest
        exact ⟨event :: events, .cons said others⟩

/-- A text that is read is a trace of events that nest, and its records are those written of
them. -/
theorem exists_written {records : List (Placed Record)}
    (read : readRecords text reader = .ok records) :
    ∃ events, Tells reader text events ∧ Nests events ∧
      Written events (records.map Placed.value) := by
  have tells : ∃ events, Tells reader text events := by
    unfold readRecords at read
    cases document : reader.document? text with
    | none =>
      rw [document] at read
      contradiction
    | some trace =>
      rw [document] at read
      have lowered : lower trace = .ok records := read
      unfold lower at lowered
      split_ifs at lowered with label
      obtain ⟨events, said⟩ := exists_said lowered
      exact ⟨events, trace, document, label, said⟩
  obtain ⟨events, tells⟩ := tells
  rcases tells.readRecords_written with ⟨others, came, nests, written⟩ | ⟨⟨fault, came⟩, _⟩
  · obtain rfl := Except.ok.inj (came.symm.trans read)
    exact ⟨events, tells, nests, written⟩
  · rw [came] at read
    contradiction

/-- A trace of begins and ends is read exactly when they nest, and then as the records of its
begins. -/
theorem readRecords_lists (tells : Tells reader text events) :
    ((∃ records, readRecords text reader = .ok records) ↔ Nests events) ∧
      ∀ records, readRecords text reader = .ok records →
        Lists events (records.map Placed.value) := by
  rcases tells.readRecords_written with
    ⟨records, came, nests, written⟩ | ⟨⟨fault, came⟩, broken⟩
  · rw [came]
    refine ⟨⟨fun _ => nests, fun _ => ⟨records, rfl⟩⟩, fun others same => ?_⟩
    obtain rfl := Except.ok.inj same
    exact written.lists
  · rw [came]
    refine ⟨⟨fun ⟨records, same⟩ => ?_, fun nests => absurd nests broken⟩, fun records same => ?_⟩
    · contradiction
    · contradiction

end

/-- The text of a begin, in pieces. -/
def beginText (kind context : String) : List String :=
  ["<TemplateBegin>", "<Kind>", kind, "</Kind>", "<Context context='", context, "'/>",
    "</TemplateBegin>"]

/-- The text of an end, in pieces. -/
def endText (kind : String) : List String :=
  ["<TemplateEnd>", "<Kind>", kind, "</Kind>", "</TemplateEnd>"]

/-- The text of a trace of events, each given in pieces. -/
def traceText (events : List (List String)) : String :=
  .join (["<Trace>"] ++ events.flatten ++ ["</Trace>"])

/-- A context that begins inside itself, and another one; the first begin and the last are open. -/
def recursiveText : String :=
  traceText [beginText "NonTemplateType" "f", beginText " Memoization " "f", endText "Memoization",
    beginText "Memoization" "g"]

/-- Its three begins nest, and its records are theirs. -/
theorem readRecords_lists_recursive :
    let events : List Occurrence :=
      [.begun ⟨.nonTemplateType, "f", none⟩, .begun ⟨.memoization, "f", none⟩, .ended .memoization,
        .begun ⟨.memoization, "g", none⟩]
    Tells .nesting recursiveText events ∧ Nests events ∧
      ∃ records, readRecords recursiveText = .ok records ∧
        Lists events (records.map Placed.value) := by
  intro events
  have tells : Tells .nesting recursiveText events := by
    rw [tells_iff, Markup.Reader.nesting]
    dsimp only
    rw [Markup.document?, Markup.documentItems, glyphs, recursiveText, traceText,
      String.toList_join]
    decide +kernel
  have nests : Nests events := by
    have outer := (Open.none balanced_nil).push ⟨.nonTemplateType, "f", none⟩
    have inner := outer.push ⟨.memoization, "f", none⟩
    exact (((nests_nil.begun _).begun _).ended inner).begun _
  obtain ⟨reads, lists⟩ := readRecords_lists tells
  obtain ⟨records, read⟩ := reads.mpr nests
  exact ⟨tells, nests, records, read, lists records read⟩

end Retrace.Templight
