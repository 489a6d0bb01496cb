import Retrace.Loader
import Retrace.Proofs.Lowering
import Retrace.Proofs.Recorded

/-!
# Walks through traces

A builder takes all records of a trace, and the walk through the session it finishes enters every
begin. The events of the graph are the begins in order, and their nesting is that of the trace:
an instantiation leaves the entity of the begin that encloses it, so it comes after an event into
that entity (`Written.chained`). Where only the first begin of each context encloses others, the
open begins are the enclosing events (`Written.nested`), so that the walk follows the trace
(`readRecords_walk`).
-/
namespace Retrace.Templight

open Builder (Holds)

/-! ## Building -/

/-- Records are taken one by one. -/
theorem addAll_concat {start builder next : Builder} {front : List (Placed Record)}
    {record : Placed Record} (taken : start.addAll front = .ok builder)
    (last : builder.add record = .ok next) : start.addAll (front ++ [record]) = .ok next := by
  unfold Builder.addAll at taken ⊢
  rw [List.foldlM_append, taken]
  change [record].foldlM Builder.add builder = .ok next
  rw [List.foldlM_cons, last]
  rfl

section

variable {rootName : String} {builder : Builder} {made : List Record}
  (holds : Holds rootName made builder) (unfinished : Record.results made = [])
include holds unfinished

/-- A declaration of a new number is taken. -/
theorem add_entity {id : LocalId} (other : id ≠ rootId) (new : id ∉ Record.numbers made)
    (name : String) (position : Position) :
    ∃ next, builder.add ⟨.entity id name, position⟩ = .ok next ∧
      Holds rootName (made ++ [.entity id name]) next := by
  refine holds.add fun fault rejected => ?_
  cases rejected <;> contradiction

/-- An instantiation between numbers that can be used is taken. -/
theorem add_instantiation {source target : LocalId} (origin : source ∈ Record.numbers made)
    (destination : target ∈ Record.numbers made) (kind : Kind) (location : Option Location)
    (position : Position) :
    ∃ next, builder.add ⟨.instantiation source target kind location, position⟩ = .ok next ∧
      Holds rootName (made ++ [.instantiation source target kind location]) next := by
  refine holds.add fun fault rejected => ?_
  cases rejected <;> contradiction

end

/-- Records whose values end in a further one end in a record of that value. -/
theorem map_value_eq_concat {placed : List (Placed Record)} {made : List Record} {record : Record}
    (values : placed.map Placed.value = made ++ [record]) :
    ∃ front position, placed = front ++ [⟨record, position⟩] ∧ front.map Placed.value = made := by
  obtain ⟨front, back, rfl, early, late⟩ := List.map_eq_append_iff.mp values
  obtain ⟨last, rfl, rfl⟩ := List.map_eq_singleton_iff.mp late
  exact ⟨front, last.position, rfl, early⟩

/-- A builder takes what is written of events. -/
theorem Written.build {past : List Occurrence} {made : List Record} (written : Written past made)
    (rootName : String) {placed : List (Placed Record)} (values : placed.map Placed.value = made) :
    ∃ builder, (Builder.new rootName).addAll placed = .ok builder ∧
      Holds rootName made builder := by
  induction written generalizing placed with
  | nil =>
    rw [List.map_eq_nil_iff.mp values]
    exact ⟨_, rfl, Builder.holds_new rootName⟩
  | @known past made begun source written known starts ih =>
    obtain ⟨front, position, rfl, early⟩ := map_value_eq_concat values
    obtain ⟨builder, taken, holds⟩ := ih early
    obtain ⟨next, last, holds⟩ := add_instantiation holds written.results_eq
      ((written.mem_numbers_iff _).mpr starts.le)
      ((written.mem_numbers_iff _).mpr (number_le known)) begun.kind begun.location position
    exact ⟨next, addAll_concat taken last, holds⟩
  | @new past made begun source written new starts ih =>
    rw [List.append_cons] at values
    obtain ⟨front, position, rfl, earlier⟩ := map_value_eq_concat values
    obtain ⟨front, position', rfl, early⟩ := map_value_eq_concat earlier
    obtain ⟨builder, taken, holds⟩ := ih early
    have unused : (contexts past).length + 1 ∉ Record.numbers made := fun used =>
      Nat.not_succ_le_self _ ((written.mem_numbers_iff _).mp used)
    obtain ⟨middle, declared, holds⟩ := add_entity holds written.results_eq (Nat.succ_ne_zero _)
      unused begun.context position'
    have grown : Record.numbers (made ++ [.entity ((contexts past).length + 1) begun.context]) =
        Record.numbers made ++ [(contexts past).length + 1] := Record.numbers_append made _
    have unfinished : Record.results
        (made ++ [.entity ((contexts past).length + 1) begun.context]) = [] := by
      rw [Record.results_append, written.results_eq]
      rfl
    obtain ⟨next, last, holds⟩ := add_instantiation holds unfinished
      (grown ▸ List.mem_append_left _ ((written.mem_numbers_iff _).mpr starts.le))
      (grown ▸ List.mem_append_right _ List.mem_cons_self) begun.kind begun.location position
    refine ⟨next, addAll_concat (addAll_concat taken declared) last, ?_⟩
    rwa [List.append_assoc] at holds
  | ended written kind ih => exact ih values

/-! ## The graph of a trace -/

/-- Records have an event for each instantiation. -/
theorem length_filterMap_event? (entity : LocalId → EntityId) (records : List Record) :
    (records.filterMap (Record.event? entity)).length = (instantiations records).length := by
  induction records with
  | nil => rfl
  | cons record records ih =>
    cases record with
    | entity | result => exact ih
    | instantiation => exact congrArg (· + 1) ih

/-- The events of records are those of their instantiations, in order. -/
theorem getElem?_filterMap_event? (entity : LocalId → EntityId) (records : List Record)
    (index : Nat) : (records.filterMap (Record.event? entity))[index]? =
      (instantiations records)[index]?.bind (Record.event? entity) := by
  induction records generalizing index with
  | nil => rfl
  | cons record records ih =>
    cases record with
    | entity | result => exact ih index
    | instantiation => cases index with
      | zero => rfl
      | succ index => exact ih index

/-- Contexts are listed once each. -/
theorem nodup_contexts (events : List Occurrence) : (contexts events).Nodup := by
  induction events using List.reverseRecOn with
  | nil => exact List.nodup_nil
  | append_singleton events event ih =>
    cases event with
    | ended kind => rwa [contexts_ended]
    | begun begun =>
      by_cases known : begun.context ∈ contexts events
      · rwa [contexts_known known]
      · rw [contexts_new known]
        refine List.nodup_append.mpr ⟨ih, List.nodup_singleton _, ?_⟩
        rintro context inside _ last rfl
        exact known (List.mem_singleton.mp last ▸ inside)

/-- A context is that of a begin. -/
theorem exists_split_of_context {events : List Occurrence} {context : String}
    (known : context ∈ contexts events) :
    ∃ past begun later, events = past ++ .begun begun :: later ∧ begun.context = context := by
  obtain ⟨begun, listed, same⟩ := List.mem_map.mp (List.mem_eraseDups.mp known)
  obtain ⟨index, inside, place⟩ := List.getElem_of_mem listed
  obtain ⟨past, other, later, split, rfl⟩ := exists_split inside
  refine ⟨past, other, later, split, ?_⟩
  have second := getElem?_begins split
  rw [List.getElem?_eq_getElem inside, place] at second
  rw [← Option.some.inj second, same]

namespace Written

variable {events : List Occurrence} {made : List Record} (written : Written events made)
include written

/-- Numbers are those of the entities. -/
theorem entityOf_eq {id : LocalId} (known : id ≤ (contexts events).length) :
    Record.entityOf made id = id := by
  have inside : id < (List.range ((contexts events).length + 1)).length := by
    rwa [List.length_range, Nat.lt_succ_iff]
  have place := List.nodup_range.idxOf_getElem id inside
  rwa [List.getElem_range, ← written.numbers_eq] at place

variable {graph : Graph} {rootName : String} (describes : graph.Describes rootName made)
include describes

/-- The graph has an entity for each context, and the root. -/
theorem numEntities_eq : graph.numEntities = (contexts events).length + 1 := by
  rw [describes.numEntities_eq, written.numbers_eq, List.length_range]

/-- The graph has an event for each begin. -/
theorem numEvents_eq : graph.numEvents = (begins events).length := by
  rw [Graph.numEvents, ← Array.length_toList, describes.events_eq, Record.events,
    length_filterMap_event?, written.length_eq]

/-- Every event of the graph is that of a begin. -/
theorem exists_split_of_lt {event : EventId} (inside : event < graph.numEvents) :
    ∃ past begun later, events = past ++ .begun begun :: later ∧ (begins past).length = event := by
  rw [written.numEvents_eq describes] at inside
  exact exists_split inside

/-- Every begin has its event. -/
theorem lt_numEvents {past later : List Occurrence} {begun : Begin}
    (split : events = past ++ .begun begun :: later) :
    (begins past).length < graph.numEvents := by
  rw [written.numEvents_eq describes, split]
  simp

/-- The events of the graph are the begins: each goes from the entity of the begin that encloses it
to that of its context. -/
theorem event_spec {past later : List Occurrence} {begun : Begin}
    (split : events = past ++ .begun begun :: later) :
    ∃ source, Source events past source ∧ graph.events[(begins past).length]? =
      some ⟨source, number events begun.context, begun.kind, begun.location, true⟩ := by
  obtain ⟨source, starts, place⟩ := written.instantiates split
  refine ⟨source, starts, ?_⟩
  obtain ⟨inside, -⟩ := List.getElem?_eq_some_iff.mp place
  have listed := List.mem_of_mem_filter (List.mem_of_getElem? place)
  obtain ⟨origin, destination⟩ := written.le_of_mem listed
  rw [← Array.getElem?_toList, describes.events_eq, Record.events, getElem?_filterMap_event?,
    place, Option.bind_some, Record.event?, written.entityOf_eq origin,
    written.entityOf_eq destination]

/-- The target of the event of a begin is the entity of its context. -/
theorem target_eq {past later : List Occurrence} {begun : Begin}
    (split : events = past ++ .begun begun :: later) :
    graph.target (begins past).length = number events begun.context := by
  obtain ⟨source, -, event⟩ := written.event_spec describes split
  rw [Graph.target, event]
  rfl

/-- The source of the event of a begin is the target of that of the begin that encloses it, which is
the innermost open one. -/
theorem source_eq {past later : List Occurrence} {begun : Begin} {stack : List (Nat × Begin)}
    (split : events = past ++ .begun begun :: later) (opened : Open past stack) :
    graph.source (begins past).length =
      ((stack.map Prod.fst).head?.map graph.target).getD root := by
  obtain ⟨source, starts, event⟩ := written.event_spec describes split
  rw [Graph.source, event]
  change source = _
  cases stack with
  | nil =>
    cases starts with
    | outside => rfl
    | inside encloses =>
      obtain ⟨index, rest, same⟩ := opened.of_encloses encloses
      contradiction
  | cons top stack =>
    cases starts with
    | outside none => exact absurd opened.encloses (none _)
    | inside encloses =>
      obtain ⟨index, rest, same⟩ := opened.of_encloses encloses
      obtain ⟨rfl, -⟩ := List.cons.inj same
      obtain ⟨before, between, rfl, rfl, -⟩ := (opened.mem_iff _ _).mp List.mem_cons_self
      rw [List.append_assoc, List.cons_append] at split
      exact (written.target_eq describes split).symm

end Written

/-! ## The walk -/

/-- Only the first begin of a context encloses other begins. -/
def FirstsEnclose (events : List Occurrence) : Prop :=
  ∀ before outer between inner later,
    events = before ++ .begun outer :: (between ++ .begun inner :: later) → Proper between →
      outer.context ∉ contexts before

section

variable {events : List Occurrence} {made : List Record} {graph : Graph} {rootName : String}
  (written : Written events made) (describes : graph.Describes rootName made)
  (proper : Proper events)
include written describes proper

/-- Every event of the graph of a trace leaves the root or the target of an earlier event. -/
theorem Written.chained : graph.Chained where
  wellFormed := describes.wellFormed
  rooted := by
    rw [written.numEntities_eq describes]
    exact Nat.succ_pos _
  enabled event inside := by
    obtain ⟨past, begun, later, split, rfl⟩ := written.exists_split_of_lt describes inside
    obtain ⟨source, -, place⟩ := written.event_spec describes split
    rw [Graph.isEnabled, place]
    rfl
  source_spec event inside := by
    obtain ⟨past, begun, later, split, rfl⟩ := written.exists_split_of_lt describes inside
    obtain ⟨stack, opened⟩ := (proper.of_prefix ⟨_, split.symm⟩).exists_open
    rw [written.source_eq describes split opened]
    cases stack with
    | nil => exact .inl rfl
    | cons top stack => exact .inr ⟨top.1, opened.lt_of_mem List.mem_cons_self, rfl⟩
  entered entity inside other := by
    rw [written.numEntities_eq describes] at inside
    obtain ⟨index, rfl⟩ := Nat.exists_eq_succ_of_ne_zero other
    have bound : index < (contexts events).length := Nat.lt_of_succ_lt_succ inside
    obtain ⟨past, begun, later, split, same⟩ := exists_split_of_context (List.getElem_mem bound)
    refine ⟨(begins past).length, written.lt_numEvents describes split, ?_⟩
    rw [written.target_eq describes split, number, same, (nodup_contexts events).idxOf_getElem]

omit proper in
/-- Where only first begins enclose others, an event that encloses another is the first into its
entity: an earlier one is that of a begin of another context. -/
theorem Written.target_ne_of_mem (firsts : FirstsEnclose events) {past later : List Occurrence}
    {begun : Begin} {stack : List (Nat × Begin)} {entry : Nat × Begin}
    (split : events = past ++ .begun begun :: later) (opened : Open past stack)
    (listed : entry ∈ stack) {earlier : EventId} (before : earlier < entry.1) :
    graph.target earlier ≠ graph.target entry.1 := by
  obtain ⟨early, between, rfl, counted, proper⟩ := (opened.mem_iff _ _).mp listed
  rw [List.append_assoc, List.cons_append] at split
  have fresh := firsts early entry.2 between begun later split proper
  rw [← counted] at before
  have inside : earlier < (begins events).length := by
    rw [split, begins_append, List.length_append]
    exact Nat.lt_add_right _ before
  obtain ⟨past', begun', later', split', rfl⟩ := exists_split inside
  have known : begun'.context ∈ contexts early := by
    have place := getElem?_begins split'
    rw [split, begins_append, List.getElem?_append_left before] at place
    exact List.mem_eraseDups.mpr (List.mem_map_of_mem (List.mem_of_getElem? place))
  rw [← counted, written.target_eq describes split, written.target_eq describes split']
  intro same
  have known' : begun'.context ∈ contexts events := split ▸ mem_contexts_append known _
  rw [← (List.idxOf_inj known').mp (Nat.succ.inj same)] at fresh
  exact fresh known

/-- Where only first begins enclose others, the events of the graph of a trace are nested as its
begins are. -/
theorem Written.nested (firsts : FirstsEnclose events) {enclosing : Nat → List (Nat × Begin)}
    (opened : ∀ past begun later, events = past ++ .begun begun :: later →
      Open past (enclosing (begins past).length)) :
    graph.Nested fun event => (enclosing event).map Prod.fst := by
  have splits {event : EventId} (inside : event < graph.numEvents) :=
    written.exists_split_of_lt describes inside
  exact {
    toChained := written.chained describes proper
    source_eq := by
      intro event inside
      obtain ⟨past, begun, later, split, rfl⟩ := splits inside
      exact written.source_eq describes split (opened _ _ _ split)
    lt_of_mem := by
      intro event inside other listed
      obtain ⟨past, begun, later, split, rfl⟩ := splits inside
      obtain ⟨entry, above, rfl⟩ := List.mem_map.mp listed
      exact (opened _ _ _ split).lt_of_mem above
    outer_eq := by
      intro event inside inner rest enclosed
      obtain ⟨past, begun, later, split, rfl⟩ := splits inside
      have ends := opened _ _ _ split
      generalize enclosing (begins past).length = stack at ends enclosed
      cases ends with
      | none => contradiction
      | one outer begun' balanced =>
        obtain ⟨rfl, rfl⟩ := List.cons.inj enclosed
        rw [List.append_assoc, List.cons_append] at split
        rw [(opened _ _ _ split).unique outer]
    between := by
      intro event inside other listed middle after before
      obtain ⟨past, begun, later, split, rfl⟩ := splits inside
      obtain ⟨past', begun', later', split', rfl⟩ := splits (before.trans inside)
      obtain ⟨entry, above, rfl⟩ := List.mem_map.mp listed
      have prior := prefix_of_begins_lt ⟨_, split'.symm⟩ ⟨_, split.symm⟩ before
      exact List.mem_map_of_mem
        ((opened _ _ _ split).mem_since above prior (opened _ _ _ split') after)
    first := by
      intro event inside other listed earlier before
      obtain ⟨past, begun, later, split, rfl⟩ := splits inside
      obtain ⟨entry, above, rfl⟩ := List.mem_map.mp listed
      exact written.target_ne_of_mem describes firsts split (opened _ _ _ split) above before
    target_ne := by
      intro event inside
      obtain ⟨past, begun, later, split, rfl⟩ := splits inside
      rw [written.target_eq describes split]
      exact Nat.succ_ne_zero _ }

end

/-- A session is at the start of a walk over all begins of a trace. -/
structure Runs (rootName : String) (events : List Occurrence) (session : Session) : Prop where
  /-- No step was taken. -/
  start : session.isAtStart = true
  /-- The entities are the root and the contexts. -/
  names_eq : session.graph.entities.toList.map Entity.name = rootName :: contexts events
  /-- There is one event for each begin. -/
  numEvents_eq : session.graph.numEvents = (begins events).length
  /-- It is that of the begin, at its place among the begins. -/
  event_spec : ∀ past begun later, events = past ++ .begun begun :: later →
    ∃ source, Source events past source ∧ session.graph.events[(begins past).length]? =
      some ⟨source, number events begun.context, begun.kind, begun.location, true⟩
  /-- There is one step for each begin, and one that finishes the walk. -/
  ends : session.EndsIn ((begins events).length + 1)
  /-- The walk enters every event once. -/
  entered_perm : (Session.step^[(begins events).length + 1] session).entered.Perm
    (List.range (begins events).length)
  /-- It discovers every entity. -/
  discovered : ∀ entity < session.graph.numEntities,
    (Session.step^[(begins events).length + 1] session).walk.isDiscovered entity = true
  /-- A run to the end takes these steps, when a word can count them. -/
  continueToEnd_eq : (begins events).length < Text.maxWord → session.continueToEnd =
    (Session.step^[(begins events).length + 1] session, (begins events).length + 1)

/-- A walk follows a trace: the step for a begin enters its event, and the backtrace then is made of
the begins that are open. -/
def Follows (events : List Occurrence) (session : Session) : Prop :=
  ∀ past begun later, events = past ++ .begun begun :: later →
    let current := Session.step^[(begins past).length + 1] session
    current.currentEvent? = some (begins past).length ∧
      ∃ stack, Open (past ++ [.begun begun]) stack ∧
        current.backtrace = (stack.map Prod.fst).reverse

section

variable {events : List Occurrence} {made : List Record} {session : Session} {rootName : String}
  (written : Written events made) (describes : session.graph.Describes rootName made)
  (proper : Proper events) (reachable : session.Reachable) (start : session.isAtStart = true)
include written describes proper reachable start

/-- A session of the graph runs over all begins. -/
theorem Written.runs : Runs rootName events session := by
  have count := written.numEvents_eq describes
  have walk := reachable.chained_spec start (written.chained describes proper)
  rw [count] at walk
  obtain ⟨ends, perm, discovered⟩ := walk
  have names : (Record.declarations made).map Prod.snd = contexts events := by
    have swapped := congrArg (List.map Prod.fst) written.declarations_eq
    rwa [List.map_map, List.zipIdx_map_fst] at swapped
  exact {
    start, numEvents_eq := count, ends, entered_perm := perm, discovered
    names_eq := names ▸ describes.names_eq
    event_spec := fun _ _ _ split => written.event_spec describes split
    continueToEnd_eq := ends.continueToEnd_eq }

/-- Where only the first begin of each context encloses others, its walk follows the trace. -/
theorem Written.follows (firsts : FirstsEnclose events) : Follows events session := by
  obtain ⟨enclosing, opened⟩ := proper.exists_enclosing
  have nested := written.nested describes proper firsts opened
  intro past begun later split
  have inside := written.lt_numEvents describes split
  obtain ⟨current, backtrace⟩ := Session.nested_spec reachable start nested inside
  exact ⟨current, _, (opened _ _ _ split).push begun, backtrace⟩

end

/-- The records of every trace that is read make a session, which runs over all begins of the trace.
Where only the first begin of each context encloses others, its walk follows the trace. -/
theorem readRecords_walk {reader : Markup.Reader} {text : String}
    {records : List (Placed Record)} (read : readRecords text reader = .ok records)
    (loader : Loader) :
    ∃ events builder session, Tells reader text events ∧
      (Builder.new loader.rootName).addAll records = .ok builder ∧
      builder.finish (loader.result.or Encoding.templight.impliedResult) = .ok session ∧
      (Encoding.detect text = .templight → loader.load text reader = .ok session) ∧
      Runs loader.rootName events session ∧ (FirstsEnclose events → Follows events session) := by
  obtain ⟨events, tells, nests, written⟩ := exists_written read
  obtain ⟨builder, taken, holds⟩ := written.build loader.rootName rfl
  obtain ⟨result, given⟩ :
      ∃ result, loader.result.or Encoding.templight.impliedResult = some result := by
    cases loader.result <;> exact ⟨_, rfl⟩
  have finished := holds.finish_eq (loader.result.or Encoding.templight.impliedResult)
  rw [given, Option.some_or] at finished
  have reachable := holds.reachable result
  refine ⟨events, builder, .ofGraph builder.session.graph result, tells, taken, ?_,
    fun encoding => ?_, written.runs holds.describes nests.proper reachable rfl,
    written.follows holds.describes nests.proper reachable rfl⟩
  · rw [given, finished]
  · simp only [Loader.load, encoding, Encoding.read, read, bind, Except.bind, taken, given,
      finished]

/-- A context in which another one begins twice and ends, and a third is left open. -/
def openText : String :=
  traceText [beginText "NonTemplateType" "f", beginText "TemplateInstantiation" "g",
    endText "TemplateInstantiation", beginText "Memoization" "g", endText "Memoization",
    beginText "NonTemplateType" "h"]

/-- Its session takes four steps to enter the begins and one to finish, and after the fourth the
first and the last begin are open. -/
theorem readRecords_walk_open :
    let events : List Occurrence :=
      [.begun ⟨.nonTemplateType, "f", none⟩, .begun ⟨.templateInstantiation, "g", none⟩,
        .ended .templateInstantiation, .begun ⟨.memoization, "g", none⟩, .ended .memoization,
        .begun ⟨.nonTemplateType, "h", none⟩]
    let loader : Loader := { rootName := "root" }
    Tells .nesting openText events ∧ FirstsEnclose events ∧ ∃ records builder session,
      readRecords openText = .ok records ∧
      (Builder.new loader.rootName).addAll records = .ok builder ∧
      builder.finish (some "") = .ok session ∧ loader.load openText = .ok session ∧
      session.continueToEnd = (Session.step^[5] session, 5) ∧
      (Session.step^[4] session).currentEvent? = some 3 ∧
      (Session.step^[4] session).backtrace = [0, 3] := by
  intro events loader
  have tells : Tells .nesting openText events := by
    rw [tells_iff, Markup.Reader.nesting]
    dsimp only
    rw [Markup.document?, Markup.documentItems, glyphs, openText, traceText, String.toList_join]
    decide +kernel
  have opened : ∃ stack, Open events stack ∧ stack.map Prod.fst = [3, 0] := by
    have outer := (Open.none balanced_nil).push ⟨.nonTemplateType, "f", none⟩
    have inner := (outer.push ⟨.templateInstantiation, "g", none⟩).pop .templateInstantiation
    have again := (inner.push ⟨.memoization, "g", none⟩).pop .memoization
    exact ⟨_, again.push ⟨.nonTemplateType, "h", none⟩, rfl⟩
  have nests : Nests events := by
    have outer := (Open.none balanced_nil).push ⟨.nonTemplateType, "f", none⟩
    have inner := outer.push ⟨.templateInstantiation, "g", none⟩
    have nests := ((nests_nil.begun _).begun _).ended inner
    exact ((nests.begun _).ended ((inner.pop _).push ⟨.memoization, "g", none⟩)).begun _
  have firsts : FirstsEnclose events := by
    intro before outer between inner later split proper
    simp only [events, List.cons_eq_append_iff, List.cons.injEq, Occurrence.begun.injEq,
      reduceCtorEq, false_and, and_false, List.append_eq_nil_iff, List.nil_eq, exists_const,
      or_self, or_false, ↓existsAndEq, true_and, false_or] at split
    rcases split with ⟨rfl, rfl, -⟩ | ⟨_, rfl, ⟨rfl, rfl, -⟩ | ⟨rfl, rfl, rest⟩⟩
    · decide
    · decide
    · simp only [List.append_eq_cons_iff, List.cons.injEq, reduceCtorEq, false_and, and_false,
        false_or] at rest
      obtain ⟨rest, rfl, -⟩ := rest
      have endsFirst := proper [.ended .memoization] ⟨rest, rfl⟩
      exact absurd endsFirst (by decide)
  have read : ∃ records, readRecords openText = .ok records := by
    rcases tells.readRecords_written with ⟨records, read, -⟩ | ⟨-, broken⟩
    · exact ⟨records, read⟩
    · exact absurd nests broken
  obtain ⟨records, read⟩ := read
  obtain ⟨others, builder, session, tells', taken, finished, loaded, runs, follows⟩ :=
    readRecords_walk read loader
  obtain rfl : events = others := tells.unique tells'
  have last := follows firsts (events.take 5) ⟨.nonTemplateType, "h", none⟩ [] rfl
  obtain ⟨current, stack, opened', backtrace⟩ := last
  obtain ⟨stack', opened, entries⟩ := opened
  obtain rfl : stack' = stack := opened.unique opened'
  rw [entries] at backtrace
  have encoding : Encoding.detect openText = .templight := by
    rw [Encoding.detect, openText, traceText, String.toList_join]
    decide +kernel
  exact ⟨tells, firsts, records, builder, session, read, taken, finished, loaded encoding,
    runs.continueToEnd_eq (by decide), current, backtrace⟩

end Retrace.Templight
