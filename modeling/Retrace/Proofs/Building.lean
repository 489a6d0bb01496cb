import Mathlib.Data.List.Basic
import Retrace.Builder
import Retrace.Proofs.History

/-!
# What records build

The state of a builder is a function of the records that it accepted. Their list tells the entity of
each number, which is the place of the number among those declared, the root's first
(`Record.entityOf`); the events, in order (`Record.events`); and the result. `Rejected` says of a
list of accepted records which records are rejected after it, and why, without a builder.

`Graph.Describes` is the relation between a list of records and the graph they are about, and
`Builder.Holds` that between the records a builder accepted and the builder. One record either is
rejected as `Rejected` says, or extends the list (`Holds.send_spec`); what a whole run of records
leaves follows by induction (`Holds.sendAll`), and what a builder finishes is read off the relation
(`sendAll_builds`).
-/
namespace Retrace

namespace Record

/-- The number and the name that a record declares. -/
def declaration? : Record → Option (LocalId × String)
  | .entity id name => some (id, name)
  | .instantiation .. | .result _ => none

/-- The result that a record gives. -/
def result? : Record → Option String
  | .result text => some text
  | .entity .. | .instantiation .. => none

/-- The event that a record is about, with entities for the numbers of its ends; it is enabled. -/
def event? (entity : LocalId → EntityId) : Record → Option Event
  | .instantiation source target kind location =>
    some ⟨entity source, entity target, kind, location, true⟩
  | .entity .. | .result _ => none

/-- The declarations of a list of records. -/
def declarations (records : List Record) : List (LocalId × String) :=
  records.filterMap declaration?

/-- The numbers that a record after the list can use: that of the root and those declared. -/
def numbers (records : List Record) : List LocalId :=
  rootId :: (declarations records).map Prod.fst

/-- The entity of a number: the root for its number, and the entities in the order in which they are
declared. -/
def entityOf (records : List Record) (id : LocalId) : EntityId := (numbers records).idxOf id

/-- The events of a list of records. -/
def events (records : List Record) : List Event := records.filterMap (event? (entityOf records))

/-- The results of a list of records. -/
def results (records : List Record) : List String := records.filterMap result?

/-- More records bring the numbers that they declare. -/
theorem numbers_append (records more : List Record) :
    numbers (records ++ more) = numbers records ++ (declarations more).map Prod.fst := by
  simp [numbers, declarations]

/-- The results of more records come after those of the first ones. -/
theorem results_append (records more : List Record) :
    results (records ++ more) = results records ++ results more := by
  simp [results]

/-- A number that can be used keeps its entity. -/
theorem entityOf_append {records : List Record} {id : LocalId} (known : id ∈ numbers records)
    (more : List Record) : entityOf (records ++ more) id = entityOf records id := by
  rw [entityOf, numbers_append, List.idxOf_append_of_mem known, entityOf]

/-- Whether a list of records uses numbers only that it declares, or that of the root. -/
def Closed (records : List Record) : Prop :=
  ∀ source target kind location, .instantiation source target kind location ∈ records →
    source ∈ numbers records ∧ target ∈ numbers records

/-- Later records add events and change none. -/
theorem events_append {records : List Record} (closed : Closed records) (more : List Record) :
    events (records ++ more) =
      events records ++ more.filterMap (event? (entityOf (records ++ more))) := by
  rw [events, events, List.filterMap_append]
  congr 1
  refine List.filterMap_congr fun record listed => ?_
  cases record with
  | entity | result => rfl
  | instantiation source target kind location =>
    obtain ⟨origin, destination⟩ := closed source target kind location listed
    simp only [event?, entityOf_append origin, entityOf_append destination]

end Record

open Record (declarations numbers entityOf results Closed)

/-! ## The graph of a list of records -/

/-- A graph is the one that a list of records is about. -/
structure Graph.Describes (graph : Graph) (rootName : String) (records : List Record) : Prop where
  /-- The lists of the entities are those of the events. -/
  wellFormed : graph.WellFormed
  /-- The entities are the root and the declared ones, in order. -/
  names_eq : graph.entities.toList.map Entity.name =
    rootName :: (declarations records).map Prod.snd
  /-- No number stands for two entities. -/
  distinct : (numbers records).Nodup
  /-- The events are the recorded ones, in order and enabled. -/
  events_eq : graph.events.toList = Record.events records
  /-- The ends of the events are numbers of entities. -/
  closed : Closed records

/-- An event leaves the names of the entities as they are. -/
theorem Graph.names_addEvent (graph : Graph) (source target : EntityId) (kind : Kind)
    (location : Option Location) :
    (graph.addEvent source target kind location).entities.toList.map Entity.name =
      graph.entities.toList.map Entity.name := by
  apply List.ext_getElem?
  intro entity
  simp only [Graph.addEvent, List.getElem?_map, Array.getElem?_toList, Array.getElem?_modify]
  by_cases leaves : source = entity <;> by_cases enters : target = entity <;>
    simp [leaves, enters, Function.comp_def]

namespace Graph.Describes

variable {graph : Graph} {rootName : String} {records : List Record}

/-- There is an entity for each number that can be used. -/
theorem numEntities_eq (describes : graph.Describes rootName records) :
    graph.numEntities = (numbers records).length := by
  have sizes := congrArg List.length describes.names_eq
  simpa [Graph.numEntities, numbers] using sizes

/-- A number that can be used stands for an entity of the graph. -/
theorem entityOf_lt (describes : graph.Describes rootName records) {id : LocalId}
    (known : id ∈ numbers records) : entityOf records id < graph.numEntities := by
  rw [describes.numEntities_eq]
  exact List.idxOf_lt_length_of_mem known

/-- A declaration of a new number adds an entity. -/
theorem declare (describes : graph.Describes rootName records) {id : LocalId}
    (new : id ∉ numbers records) (name : String) :
    (graph.addEntity name).Describes rootName (records ++ [.entity id name]) := by
  have grown : numbers (records ++ [.entity id name]) = numbers records ++ [id] :=
    Record.numbers_append records _
  refine ⟨describes.wellFormed.addEntity name, ?_, ?_, ?_, ?_⟩
  · rw [Graph.addEntity, Array.toList_push, List.map_append, describes.names_eq]
    simp [declarations, Record.declaration?]
  · rw [grown]
    refine List.nodup_append.mpr ⟨describes.distinct, by simp, ?_⟩
    rintro first inside _ single rfl
    exact new (List.mem_singleton.mp single ▸ inside)
  · rw [Record.events_append describes.closed]
    exact describes.events_eq.trans (List.append_nil _).symm
  · intro source target kind location listed
    obtain ⟨origin, destination⟩ :=
      describes.closed source target kind location (by simpa using listed)
    rw [grown]
    exact ⟨List.mem_append_left _ origin, List.mem_append_left _ destination⟩

/-- An instantiation between numbers that can be used adds an event. -/
theorem instantiate (describes : graph.Describes rootName records) {source target : LocalId}
    (origin : source ∈ numbers records) (destination : target ∈ numbers records) (kind : Kind)
    (location : Option Location) :
    (graph.addEvent (entityOf records source) (entityOf records target) kind location).Describes
      rootName (records ++ [.instantiation source target kind location]) := by
  have grown : numbers (records ++ [.instantiation source target kind location]) =
      numbers records := (Record.numbers_append records _).trans (List.append_nil _)
  refine ⟨describes.wellFormed.addEvent (describes.entityOf_lt origin)
    (describes.entityOf_lt destination) kind location, ?_, ?_, ?_, ?_⟩
  · rw [Graph.names_addEvent, describes.names_eq]
    simp [declarations, Record.declaration?]
  · rw [grown]
    exact describes.distinct
  · rw [Record.events_append describes.closed, ← describes.events_eq]
    simp [Graph.addEvent, Record.event?, Record.entityOf_append, origin, destination]
  · intro first second kind' location' listed
    rw [grown]
    rcases List.mem_append.mp listed with before | last
    · exact describes.closed first second kind' location' before
    · obtain ⟨rfl, rfl, -, -⟩ := Record.instantiation.inj (List.mem_singleton.mp last)
      exact ⟨origin, destination⟩

/-- A result is not about the graph. -/
theorem conclude (describes : graph.Describes rootName records) (text : String) :
    graph.Describes rootName (records ++ [.result text]) := by
  have grown : numbers (records ++ [.result text]) = numbers records :=
    (Record.numbers_append records _).trans (List.append_nil _)
  refine ⟨describes.wellFormed, ?_, ?_, ?_, ?_⟩
  · rw [describes.names_eq]
    simp [declarations, Record.declaration?]
  · rw [grown]
    exact describes.distinct
  · rw [Record.events_append describes.closed]
    exact describes.events_eq.trans (List.append_nil _).symm
  · intro source target kind location listed
    rw [grown]
    exact describes.closed source target kind location (by simpa using listed)

end Graph.Describes

/-! ## Rejection -/

/-- The records that are rejected after a list of accepted records, each with its fault. A fault
stands at the position of the record. -/
inductive Rejected (accepted : List Record) : Placed Record → TraceError → Prop
  /-- Nothing may follow a result. -/
  | trailing {record : Placed Record} : results accepted ≠ [] →
      Rejected accepted record (.trailing record.position)
  /-- The number of the root is not declared. -/
  | reserved {name : String} {position : Position} : results accepted = [] →
      Rejected accepted ⟨.entity rootId name, position⟩ (.reserved position)
  /-- No number is declared twice. -/
  | duplicate {id : LocalId} {name : String} {position : Position} : results accepted = [] →
      id ≠ rootId → id ∈ numbers accepted →
      Rejected accepted ⟨.entity id name, position⟩ (.duplicate id position)
  /-- The source of an instantiation is declared before it. -/
  | source {source target : LocalId} {kind : Kind} {location : Option Location}
      {position : Position} : results accepted = [] → source ∉ numbers accepted →
      Rejected accepted ⟨.instantiation source target kind location, position⟩
        (.undeclared source position)
  /-- So is its target. -/
  | target {source target : LocalId} {kind : Kind} {location : Option Location}
      {position : Position} : results accepted = [] → source ∈ numbers accepted →
      target ∉ numbers accepted →
      Rejected accepted ⟨.instantiation source target kind location, position⟩
        (.undeclared target position)

/-- A record is rejected for one fault. -/
theorem Rejected.unique {accepted : List Record} {record : Placed Record} {fault other : TraceError}
    (first : Rejected accepted record fault) (second : Rejected accepted record other) :
    fault = other := by
  cases first <;> cases second <;> first | rfl | contradiction

namespace Builder

/-! ## Sending records -/

/-- Looking at the builder leaves it as it is. -/
theorem run_get (builder : Builder) :
    (get : Action Builder).run.run builder = (.ok builder, builder) := rfl

/-- Work goes on from the builder that the part before it left, unless that part failed. -/
theorem run_bind {α β : Type} (first : Action α) (next : α → Action β) (builder : Builder) :
    (first >>= next).run.run builder =
      match first.run.run builder with
      | (.ok value, builder) => (next value).run.run builder
      | (.error fault, builder) => (.error fault, builder) := by
  rw [ExceptT.run_bind, StateT.run_bind]
  generalize first.run.run builder = came
  obtain ⟨_ | _, _⟩ := came <;> rfl

/-- Looking up a number gives its entity, or an error when it is not declared. -/
theorem run_lookup (builder : Builder) (id : LocalId) (position : Position) :
    (lookup id position).run.run builder =
      (match builder.entity? id with
        | some entity => .ok entity
        | none => .error (.undeclared id position), builder) := by
  simp only [lookup, run_bind, run_get]
  cases builder.entity? id <;> rfl

/-- The number of a declaration is checked before the session has a new entity. -/
theorem run_declare (builder : Builder) (id : LocalId) (name : String) (position : Position) :
    (declare id name position).run.run builder =
      if id = rootId then (.error (.reserved position), builder)
      else if (builder.entity? id).isSome then (.error (.duplicate id position), builder)
      else (.ok (),
        { builder with
          session := builder.session.addEntity name
          declared := (id, builder.session.graph.numEntities) :: builder.declared }) := by
  rw [declare]
  by_cases reserved : id = rootId
  · simp only [reserved, if_true]
    rfl
  · simp only [reserved, if_false, run_bind, run_get]
    split <;> rfl

/-- Nothing follows a result. -/
theorem send_finished {builder : Builder} (finished : builder.result.isSome = true)
    (record : Placed Record) :
    builder.send record = (.error (.trailing record.position), builder) := by
  simp only [send, take, run_bind, run_get, finished, if_true]
  rfl

/-- A builder that has no result takes a declaration of a number that is neither reserved nor
declared. -/
theorem send_entity {builder : Builder} (unfinished : builder.result.isSome = false)
    (id : LocalId) (name : String) (position : Position) :
    builder.send ⟨.entity id name, position⟩ =
      if id = rootId then (.error (.reserved position), builder)
      else if (builder.entity? id).isSome then (.error (.duplicate id position), builder)
      else (.ok (),
        { builder with
          session := builder.session.addEntity name
          declared := (id, builder.session.graph.numEntities) :: builder.declared }) := by
  simp only [send, take, run_bind, run_get, unfinished, Bool.false_eq_true, if_false, run_declare]

/-- What comes of an instantiation: its source is looked up before its target. -/
theorem send_instantiation {builder : Builder} (unfinished : builder.result.isSome = false)
    (source target : LocalId) (kind : Kind) (location : Option Location) (position : Position) :
    builder.send ⟨.instantiation source target kind location, position⟩ =
      match builder.entity? source, builder.entity? target with
      | some origin, some destination =>
        (.ok (),
          { builder with session := builder.session.addEvent origin destination kind location })
      | some _, none => (.error (.undeclared target position), builder)
      | none, _ => (.error (.undeclared source position), builder) := by
  simp only [send, take, run_bind, run_get, unfinished, Bool.false_eq_true, if_false, run_lookup]
  cases builder.entity? source with
  | none => rfl
  | some origin =>
    dsimp only
    cases builder.entity? target <;> rfl

/-- A builder that has no result takes one. -/
theorem send_result {builder : Builder} (unfinished : builder.result.isSome = false)
    (text : String) (position : Position) :
    builder.send ⟨.result text, position⟩ = (.ok (), { builder with result := some text }) := by
  simp only [send, take, run_bind, run_get, unfinished, Bool.false_eq_true, if_false]
  rfl

/-- A record that a builder rejects leaves it as it was. -/
theorem send_eq_of_error {builder : Builder} {record : Placed Record} {fault : TraceError}
    (rejected : (builder.send record).1 = .error fault) :
    builder.send record = (.error fault, builder) := by
  have kept : (builder.send record).1 = .error fault → (builder.send record).2 = builder := by
    obtain ⟨record, position⟩ := record
    cases finished : builder.result.isSome with
    | true => simp only [send_finished finished, implies_true]
    | false =>
      cases record with
      | entity id name =>
        rw [send_entity finished]
        split_ifs <;> simp
      | instantiation source target kind location =>
        rw [send_instantiation finished]
        split <;> simp
      | result text => simp [send_result finished]
  exact Prod.ext rejected (kept rejected)

/-- The builder after records were sent to it, some of which it may have rejected. -/
def sendAll (builder : Builder) (sent : List (Placed Record)) : Builder :=
  sent.foldl (fun builder record => (builder.send record).2) builder

/-- Those of the records sent to a builder that it accepts. -/
def accepted (builder : Builder) : List (Placed Record) → List (Placed Record)
  | [] => []
  | record :: sent =>
    let (outcome, next) := builder.send record
    if outcome.isOk then record :: next.accepted sent else next.accepted sent

/-- A rejected record is as one that is not sent. -/
theorem sendAll_of_error {builder : Builder} {record : Placed Record} {fault : TraceError}
    (rejected : builder.send record = (.error fault, builder)) (sent : List (Placed Record)) :
    builder.sendAll (record :: sent) = builder.sendAll sent ∧
      builder.accepted (record :: sent) = builder.accepted sent := by
  constructor
  · rw [sendAll, List.foldl_cons, rejected, sendAll]
  · rw [accepted, rejected]
    rfl

/-- An accepted record is the first of those accepted. -/
theorem sendAll_of_ok {builder next : Builder} {record : Placed Record}
    (taken : builder.send record = (.ok (), next)) (sent : List (Placed Record)) :
    builder.sendAll (record :: sent) = next.sendAll sent ∧
      builder.accepted (record :: sent) = record :: next.accepted sent := by
  constructor
  · rw [sendAll, List.foldl_cons, taken, sendAll]
  · rw [accepted, taken]
    rfl

/-- What a builder is after it has accepted records and no others. -/
structure Holds (rootName : String) (records : List Record) (builder : Builder) : Prop where
  /-- The session is at its start, and has no result yet. -/
  start : builder.session = .ofGraph builder.session.graph ""
  /-- Commands build the session, whatever its result is going to be. -/
  commands : ∃ commands, ∀ result, { builder.session with result } =
    (Session.new rootName result).run commands
  /-- The records are about the graph. -/
  describes : builder.session.graph.Describes rootName records
  /-- Each number that can be used is mapped to its entity. -/
  entity?_eq : ∀ id, builder.entity? id =
    if id ∈ numbers records then some (entityOf records id) else none
  /-- The result is the recorded one. -/
  result_eq : builder.result = (results records).head?

/-- A new builder is about no records. -/
theorem holds_new (rootName : String) : Holds rootName [] (new rootName) where
  start := rfl
  commands := ⟨[], fun _ => rfl⟩
  describes :=
    { wellFormed := Graph.wellFormed_empty.addEntity rootName
      names_eq := rfl
      distinct := by simp [numbers, declarations]
      events_eq := rfl
      closed := fun _ _ _ _ listed => by simp at listed }
  entity?_eq id := by
    by_cases same : id = rootId
    · simp [entity?, new, numbers, declarations, entityOf, same, root]
    · simp [entity?, new, numbers, declarations, same]
  result_eq := rfl

namespace Holds

variable {rootName : String} {records : List Record} {builder : Builder}

/-- The session of a builder can be reached by commands, whatever its result is. -/
theorem reachable (holds : Holds rootName records builder) (result : String) :
    (Session.ofGraph builder.session.graph result).Reachable := by
  obtain ⟨commands, built⟩ := holds.commands
  refine ⟨rootName, result, commands, ?_⟩
  rw [← built, holds.start]
  rfl

/-- A declaration of a new number adds an entity. -/
theorem declare (holds : Holds rootName records builder) {id : LocalId}
    (new : id ∉ numbers records) (name : String) :
    Holds rootName (records ++ [.entity id name])
      { builder with
        session := builder.session.addEntity name
        declared := (id, builder.session.graph.numEntities) :: builder.declared } := by
  have grown : numbers (records ++ [.entity id name]) = numbers records ++ [id] :=
    Record.numbers_append records _
  refine ⟨?_, ?_, holds.describes.declare new name, fun other => ?_, ?_⟩
  · have rooted : 0 < builder.session.graph.numEntities := by
      rw [holds.describes.numEntities_eq]
      exact Nat.succ_pos _
    rw [holds.start]
    simp only [Session.addEntity, Session.ofGraph, Walk.grow_eq_growBy, Walk.growBy_start rooted,
      Graph.numEntities_addEntity]
  · obtain ⟨commands, built⟩ := holds.commands
    refine ⟨commands ++ [.addEntity name], fun result => ?_⟩
    rw [Session.run, List.foldl_append]
    show _ = (((Session.new rootName result).run commands).apply (.addEntity name)).1
    rw [← built result]
    rfl
  · rw [grown, entity?, List.lookup_cons]
    by_cases same : other = id
    · subst same
      rw [beq_self_eq_true, if_pos (List.mem_append_right _ List.mem_cons_self), entityOf, grown,
        List.idxOf_append_of_notMem new, List.idxOf_cons_self, holds.describes.numEntities_eq]
      rfl
    · have apart : (other == id) = false := beq_false_of_ne same
      have before := holds.entity?_eq other
      rw [entity?] at before
      simp only [apart, before, List.mem_append, List.mem_singleton, same, or_false]
      by_cases known : other ∈ numbers records
      · rw [if_pos known, if_pos known, Record.entityOf_append known]
      · rw [if_neg known, if_neg known]
  · rw [Record.results_append]
    exact holds.result_eq.trans (by simp [results, Record.result?])

/-- A record that declares nothing leaves the numbers as they are. -/
theorem entity?_append (holds : Holds rootName records builder) {more : List Record}
    (silent : declarations more = []) (id : LocalId) :
    builder.entity? id = if id ∈ numbers (records ++ more) then some (entityOf (records ++ more) id)
      else none := by
  have grown : numbers (records ++ more) = numbers records := by
    rw [Record.numbers_append, silent, List.map_nil, List.append_nil]
  rw [entityOf, grown]
  exact holds.entity?_eq id

/-- An instantiation between numbers that can be used adds an event. -/
theorem instantiate (holds : Holds rootName records builder) {source target : LocalId}
    (origin : source ∈ numbers records) (destination : target ∈ numbers records) (kind : Kind)
    (location : Option Location) :
    Holds rootName (records ++ [.instantiation source target kind location])
      { builder with
        session := builder.session.addEvent (entityOf records source) (entityOf records target)
          kind location } := by
  refine ⟨?_, ?_, holds.describes.instantiate origin destination kind location,
    holds.entity?_append rfl, ?_⟩
  · rw [holds.start]
    simp only [Session.addEvent, Session.ofGraph, Graph.numEntities_addEvent]
  · obtain ⟨commands, built⟩ := holds.commands
    refine ⟨commands ++ [.addEvent (entityOf records source) (entityOf records target) kind
      location], fun result => ?_⟩
    have leaves := holds.describes.entityOf_lt origin
    have enters := holds.describes.entityOf_lt destination
    rw [Session.run, List.foldl_append]
    show _ = (((Session.new rootName result).run commands).apply (.addEvent _ _ kind location)).1
    rw [← built result]
    simp [Session.apply, Session.addEvent?, Graph.addEvent?, Nat.not_le.mpr leaves,
      Nat.not_le.mpr enters, Except.map, Session.addEvent]
  · rw [Record.results_append]
    exact holds.result_eq.trans (by simp [results, Record.result?])

/-- The first result is noted. -/
theorem conclude (holds : Holds rootName records builder) (first : results records = [])
    (text : String) :
    Holds rootName (records ++ [.result text]) { builder with result := some text } := by
  refine ⟨holds.start, holds.commands, holds.describes.conclude text, holds.entity?_append rfl, ?_⟩
  rw [Record.results_append, first]
  rfl

/-- A builder either rejects a record for the fault that the accepted records give it, and stays as
it is, or takes it as the next of them. -/
theorem send_spec (holds : Holds rootName records builder) (record : Placed Record) :
    (∃ fault, Rejected records record fault ∧ builder.send record = (.error fault, builder)) ∨
      (∃ next, builder.send record = (.ok (), next) ∧
        Holds rootName (records ++ [record.value]) next ∧
        ∀ fault, ¬ Rejected records record fault) := by
  obtain ⟨record, position⟩ := record
  by_cases open' : results records = []
  · have going : builder.result.isSome = false := by rw [holds.result_eq, open']; rfl
    cases record with
    | entity id name =>
      rw [send_entity going, holds.entity?_eq]
      by_cases reserved : id = rootId
      · subst reserved
        exact .inl ⟨_, .reserved open', if_pos rfl⟩
      · rw [if_neg reserved]
        by_cases known : id ∈ numbers records
        · refine .inl ⟨_, .duplicate open' reserved known, ?_⟩
          simp only [known, if_true, Option.isSome_some]
        · refine .inr ⟨_, ?_, holds.declare known name, fun fault rejected => ?_⟩
          · simp only [known, if_false, Option.isSome_none, Bool.false_eq_true]
          · cases rejected <;> contradiction
    | instantiation source target kind location =>
      rw [send_instantiation going, holds.entity?_eq, holds.entity?_eq]
      by_cases origin : source ∈ numbers records
      · by_cases destination : target ∈ numbers records
        · refine .inr ⟨_, ?_, holds.instantiate origin destination kind location,
            fun fault rejected => ?_⟩
          · simp only [origin, destination, if_true]
          · cases rejected <;> contradiction
        · refine .inl ⟨_, .target open' origin destination, ?_⟩
          simp only [origin, destination, if_true, if_false]
      · refine .inl ⟨_, .source open' origin, ?_⟩
        simp only [origin, if_false]
    | result text =>
      refine .inr ⟨_, send_result going text position, holds.conclude open' text,
        fun fault rejected => ?_⟩
      cases rejected
      contradiction
  · have concluded : builder.result.isSome = true := by
      rw [holds.result_eq, List.isSome_head?]
      simpa using open'
    exact .inl ⟨_, .trailing open', send_finished concluded _⟩

/-- A record is rejected for exactly the fault that the accepted records give it. -/
theorem send_eq_error_iff (holds : Holds rootName records builder) (record : Placed Record)
    (fault : TraceError) :
    (builder.send record).1 = .error fault ↔ Rejected records record fault := by
  rcases holds.send_spec record with ⟨found, rejected, sent⟩ | ⟨next, sent, _, accepted⟩
  · rw [sent]
    constructor
    · intro same
      exact Except.error.inj same ▸ rejected
    · intro other
      rw [rejected.unique other]
  · rw [sent]
    constructor
    · intro same
      contradiction
    · intro rejected
      exact absurd rejected (accepted fault)

/-- A builder goes through records as through those of them that it accepts. -/
theorem sendAll (holds : Holds rootName records builder) (sent : List (Placed Record)) :
    Holds rootName (records ++ (builder.accepted sent).map Placed.value)
      (builder.sendAll sent) := by
  induction sent generalizing records builder with
  | nil => simpa [Builder.sendAll, accepted] using holds
  | cons record sent ih =>
    rcases holds.send_spec record with ⟨_, _, rejected⟩ | ⟨next, taken, grown, _⟩
    · obtain ⟨stays, none⟩ := sendAll_of_error rejected sent
      rw [stays, none]
      exact ih holds
    · obtain ⟨goes, first⟩ := sendAll_of_ok taken sent
      have rest := ih grown
      rw [List.append_assoc] at rest
      rw [goes, first]
      exact rest

/-- A builder takes a record that is not rejected. -/
theorem add (holds : Holds rootName records builder) {record : Placed Record}
    (accepted : ∀ fault, ¬ Rejected records record fault) :
    ∃ next, builder.add record = .ok next ∧ Holds rootName (records ++ [record.value]) next := by
  rcases holds.send_spec record with ⟨fault, rejected, _⟩ | ⟨next, taken, grown, _⟩
  · exact absurd rejected (accepted fault)
  · refine ⟨next, ?_, grown⟩
    rw [Builder.add, taken]
    rfl

/-- What a builder finishes with a result that is given or recorded: a fresh session. -/
theorem finish_eq (holds : Holds rootName records builder) (given : Option String) :
    builder.finish given = match given.or (results records).head? with
      | some result => .ok (.ofGraph builder.session.graph result)
      | none => .error .missingResult := by
  rw [finish, holds.result_eq]
  cases given.or (results records).head? with
  | none => rfl
  | some result =>
    have fresh : ({ builder.session with result } : Session) =
        .ofGraph builder.session.graph result := by
      rw [holds.start]
      rfl
    exact congrArg Except.ok fresh

end Holds

/-- The records that a builder accepts, sent alone, leave it as all of them did, and none of them is
rejected. -/
theorem addAll_accepted (builder : Builder) (sent : List (Placed Record)) :
    builder.addAll (builder.accepted sent) = .ok (builder.sendAll sent) ∧
      builder.sendAll (builder.accepted sent) = builder.sendAll sent := by
  induction sent generalizing builder with
  | nil => exact ⟨rfl, rfl⟩
  | cons record sent ih =>
    cases came : (builder.send record).1 with
    | error fault =>
      obtain ⟨stays, none⟩ := sendAll_of_error (send_eq_of_error came) sent
      rw [stays, none]
      exact ih builder
    | ok =>
      have taken : builder.send record = (.ok (), (builder.send record).2) := Prod.ext came rfl
      generalize (builder.send record).2 = next at taken
      obtain ⟨all, same⟩ := ih next
      obtain ⟨goes, first⟩ := sendAll_of_ok taken sent
      rw [goes, first, (sendAll_of_ok taken _).1, addAll, List.foldlM_cons, add, taken]
      exact ⟨all, same⟩

/-- Whatever records a builder was sent, it is as if only those had been sent that it accepted. A
further record is rejected as `Rejected` says of these, and then changes nothing. The builder fails
to finish exactly when no result is given and none was accepted. Otherwise it finishes a session at
the start of its walk, through the graph that the accepted records are about, with the result given,
else the accepted one. -/
theorem sendAll_builds (rootName : String) (sent : List (Placed Record)) :
    let builder := (new rootName).sendAll sent
    let accepted := (new rootName).accepted sent
    let records := accepted.map Placed.value
    let graph := builder.session.graph
    ((new rootName).addAll accepted = .ok builder ∧ (new rootName).sendAll accepted = builder) ∧
      (∀ record fault, (builder.send record).1 = .error fault ↔ Rejected records record fault) ∧
      (∀ record fault, Rejected records record fault → (builder.send record).2 = builder) ∧
      (∀ given, builder.finish given = .error .missingResult ↔
        given = none ∧ results records = []) ∧
      (∀ given result, given.or (results records).head? = some result →
        builder.finish given = .ok (.ofGraph graph result) ∧
          (Session.ofGraph graph result).Reachable) ∧
      graph.Describes rootName records := by
  intro builder accepted records graph
  have holds : Holds rootName records builder := (holds_new rootName).sendAll sent
  refine ⟨addAll_accepted _ sent, holds.send_eq_error_iff, fun record fault rejected => ?_,
    fun given => ?_, fun given result found => ?_, holds.describes⟩
  · rw [send_eq_of_error ((holds.send_eq_error_iff record fault).mpr rejected)]
  · rw [holds.finish_eq]
    cases given <;> cases results records <;> simp
  · rw [holds.finish_eq, found]
    exact ⟨rfl, holds.reachable result⟩

/-- A builder is sent a record of every kind and one of every fault. -/
theorem sendAll_builds_faulty :
    let sent : List (Placed Record) :=
      [⟨.entity 1 "a", ⟨1, 1⟩⟩, ⟨.entity 1 "b", ⟨2, 1⟩⟩, ⟨.entity 0 "c", ⟨3, 1⟩⟩,
        ⟨.instantiation 7 1 .memoization none, ⟨4, 1⟩⟩,
        ⟨.instantiation 0 7 .memoization none, ⟨5, 1⟩⟩,
        ⟨.instantiation 0 1 .memoization (some ⟨"main.cpp", 3, 12⟩), ⟨6, 1⟩⟩,
        ⟨.result "int", ⟨7, 1⟩⟩, ⟨.entity 2 "b", ⟨8, 1⟩⟩]
    let builder := (new "root").sendAll sent
    let accepted := (new "root").accepted sent
    accepted.map (·.position.line) = [1, 6, 7] ∧ (new "root").sendAll accepted = builder ∧
      (builder.send ⟨.entity 2 "b", ⟨9, 1⟩⟩).1 = .error (.trailing ⟨9, 1⟩) ∧
      builder.session.graph.events.toList =
        [⟨0, 1, .memoization, some ⟨"main.cpp", 3, 12⟩, true⟩] ∧
      builder.finish none = .ok (.ofGraph builder.session.graph "int") ∧
      builder.finish (some "long") = .ok (.ofGraph builder.session.graph "long") := by
  intro sent builder accepted
  obtain ⟨⟨_, same⟩, rejected, _, _, finished, describes⟩ := sendAll_builds "root" sent
  refine ⟨by decide, same, ?_, ?_, (finished none "int" (by decide)).1,
    (finished (some "long") "long" (by decide)).1⟩
  · exact (rejected _ _).mpr (.trailing (by decide))
  · rw [describes.events_eq]
    decide

end Builder

end Retrace
