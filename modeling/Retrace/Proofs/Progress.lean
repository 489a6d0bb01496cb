import Mathlib.Data.List.Forall2
import Mathlib.Data.List.Lex
import Mathlib.Order.WithBot
import Retrace.Proofs.Coverage

/-!
# Progress of walks

Backtraces are compared event by event from the root, a backtrace comes before its extensions, and
the end of the walk comes after all of them. In this order every step goes forward, whatever was
added or disabled before it (`Sound.place_lt_advance`): it leaves the frames above one that leads to
the source of the event it enters, and the event comes after the one left there.

No event is entered twice while the graph changes. The lineage of its source never changes, and with
the event on top of it is a place at which the walk stood; a second entry would be at that place
again, and the walk has passed it.
-/
namespace Retrace

/-- The trail of two parts of a stack is made of their trails. -/
theorem trailOf_append (above below : List Frame) :
    trailOf (above ++ below) = trailOf above ++ trailOf below :=
  List.filterMap_append

namespace Walk

/-- The backtrace of a walk in the order of its events, with the end of the walk above all
backtraces. -/
def place (walk : Walk) : WithTop (List EventId) :=
  if walk.stack.isEmpty then ⊤ else (walk.trail.reverse : List EventId)

/-- An unfinished walk stands at the place of its trail. -/
theorem place_of_stack_eq {walk : Walk} {top : Frame} {below : List Frame}
    (stack : walk.stack = top :: below) : walk.place = (walk.trail.reverse : List EventId) := by
  simp [place, stack]

/-- A larger graph leaves the walk at its place. -/
@[simp] theorem place_growBy (walk : Walk) (count : Nat) : (walk.growBy count).place = walk.place :=
  rfl

/-! ## One step -/

section

variable {graph : Graph} {walk : Walk}

/-- The frames below an event of a lineage lead to its source. -/
theorem Lineage.below_event {entity : EntityId} {event : EventId} {frames above below : List Frame}
    (lineage : Lineage graph walk entity frames) (split : frames = above ++ .via event :: below) :
    Lineage graph walk (graph.source event) below := by
  induction lineage generalizing above with
  | root _ => rcases above with _ | ⟨_, _⟩ <;> simp at split
  | via _ _ _ lineage ih =>
    cases above with
    | nil =>
      obtain ⟨top, rfl⟩ := List.cons.inj split
      exact Frame.via.inj top ▸ lineage
    | cons frame above => exact ih (List.cons.inj split).2

/-- The frames below an event of the stack lead to its source. -/
theorem Stands.below_event {event : EventId} {stack above below : List Frame}
    (stands : Stands graph walk stack) (split : stack = above ++ .via event :: below) :
    Lineage graph walk (graph.source event) below := by
  cases stands with
  | finished => simp at split
  | root => rcases above with _ | ⟨_, _⟩ <;> simp at split
  | via _ _ lineage =>
    cases above with
    | nil =>
      obtain ⟨top, rfl⟩ := List.cons.inj split
      exact Frame.via.inj top ▸ lineage
    | cons frame above => exact lineage.below_event (List.cons.inj split).2

variable {depth : Nat} {event : EventId} {rest : List (Nat × EventId)} {popped stay : List Frame}

/-- The backtrace to the event that a move enters comes after the one it left. -/
theorem Descends.trail_lt (sound : Sound graph walk)
    (descends : walk.Descends graph depth event rest popped stay) :
    walk.trail.reverse < (event :: trailOf stay).reverse := by
  rw [trail_eq, descends.split, trailOf_append, List.reverse_append, List.reverse_cons]
  rcases descends.after with ⟨rfl, _⟩ | ⟨left, passed, source, order⟩
  · apply List.append_left_lt
    exact List.nil_lt_cons event []
  · obtain ⟨above, between, rfl⟩ := List.append_of_mem passed
    have lineage := sound.stands.below_event (by rw [descends.split, List.append_assoc]; rfl)
    rw [source] at lineage
    have same : between ++ stay = stay := lineage.unique sound.root_parent descends.lineage
    obtain rfl : between = [] := List.append_left_eq_self.mp same
    apply List.append_left_lt
    rw [trailOf_append, trailOf_via, trailOf_nil, List.reverse_append, List.reverse_singleton]
    exact List.cons_lt_cons_iff.mpr (.inl order)

/-- A move that enters an event ends at the event on top of the frames kept. -/
theorem Descends.place_advance (descends : walk.Descends graph depth event rest popped stay) :
    (walk.advance graph).1.place = ((event :: trailOf stay).reverse : List EventId) := by
  rw [place_of_stack_eq descends.stack_advance, descends.trail_advance]

/-- A move goes forward. -/
theorem Sound.place_lt_advance (wellFormed : graph.WellFormed) (sound : Sound graph walk)
    (unfinished : walk.stack.isEmpty = false) : walk.place < (walk.advance graph).1.place := by
  obtain ⟨top, below, stack⟩ : ∃ top below, walk.stack = top :: below :=
    List.exists_cons_of_ne_nil (by simpa using unfinished)
  rw [place_of_stack_eq stack]
  cases agenda : walk.agenda graph with
  | nil =>
    rw [advance_of_agenda_eq_nil wellFormed sound.stands agenda]
    exact WithTop.coe_lt_top _
  | cons first rest =>
    obtain ⟨popped, stay, descends⟩ := descends_of_agenda wellFormed sound.stands agenda
    rw [descends.place_advance, WithTop.coe_lt_coe]
    exact descends.trail_lt sound

/-- A move keeps the parents that were noted. -/
theorem Sound.parentOf_advance (wellFormed : graph.WellFormed) (sound : Sound graph walk)
    {entity : EntityId} {noted : EventId} (parent : walk.parentOf entity = some noted) :
    (walk.advance graph).1.parentOf entity = some noted := by
  cases agenda : walk.agenda graph with
  | nil =>
    rw [advance_of_agenda_eq_nil wellFormed sound.stands agenda]
    exact parent
  | cons first rest =>
    obtain ⟨popped, stay, descends⟩ := descends_of_agenda wellFormed sound.stands agenda
    have known := (sound.parent_spec parent).2.2.1
    rw [descends.parentOf_advance wellFormed sound.fits, if_neg, parent]
    rintro ⟨rfl, unknown⟩
    rw [known] at unknown
    contradiction

end

end Walk

namespace Session

/-- Where a session stands in the order of its backtraces. -/
def place (session : Session) : WithTop (List EventId) := session.walk.place

/-- The move that a step makes: it is new in the log, and it is into the event in which the session
then stands, if it stands in one. The event is enabled. -/
theorem log_step_enters {session : Session} {past : List Session} (traced : Traced session past)
    (unfinished : session.isFinished = false) :
    ∃ move, session.step.log = move :: session.log ∧
      move.descent.map Descent.event = session.step.currentEvent? ∧
      ∀ event, session.step.currentEvent? = some event → session.graph.isEnabled event = true := by
  refine ⟨_, log_step unfinished, ?_⟩
  rw [currentEvent?, walk_step unfinished]
  cases agenda : session.walk.agenda session.graph with
  | nil =>
    rw [Walk.advance_of_agenda_eq_nil traced.wellFormed traced.sound.stands agenda]
    exact ⟨rfl, fun event entered => by simp [Walk.currentEvent?] at entered⟩
  | cons first rest =>
    obtain ⟨popped, stay, descends⟩ :=
      Walk.descends_of_agenda traced.wellFormed traced.sound.stands agenda
    have current : (session.walk.advance session.graph).1.currentEvent? = some first.2 := by
      rw [Walk.currentEvent?, descends.stack_advance]
      rfl
    rw [current]
    refine ⟨?_, fun event entered => Option.some.inj entered ▸ descends.enabled⟩
    rw [descends.advance_eq, Option.map_some, Walk.event_enter]

/-! ## Events entered before -/

/-- An event that a session has passed: the walk stands at the event on top of the lineage of its
source, or beyond. -/
def Passed (session : Session) (event : EventId) : Prop :=
  ∃ frames, Walk.Lineage session.graph session.walk (session.graph.source event) frames ∧
    (((event :: trailOf frames).reverse : List EventId) : WithTop (List EventId)) ≤ session.place

section

variable {session : Session} {past : List Session}

/-- A step goes to a later place. -/
theorem Traced.place_lt_step (traced : Traced session past)
    (unfinished : session.isFinished = false) : session.place < session.step.place := by
  rw [place, place, walk_step unfinished]
  exact traced.sound.place_lt_advance traced.wellFormed unfinished

/-- Edits leave a session at its place. -/
theorem Revision.place_eq {revised : Session} (revision : Revision session revised) :
    revised.place = session.place := by
  rw [place, place, revision.walk_eq, Walk.place_growBy]

/-- What was passed stays passed by a step. -/
theorem Passed.step (traced : Traced session past) (unfinished : session.isFinished = false)
    {event : EventId} (passed : session.Passed event) : session.step.Passed event := by
  obtain ⟨frames, lineage, behind⟩ := passed
  refine ⟨frames, ?_, behind.trans (traced.place_lt_step unfinished).le⟩
  rw [graph_step, walk_step unfinished]
  exact lineage.mono (.refl _) fun _ _ parent =>
    traced.sound.parentOf_advance traced.wellFormed parent

/-- What was passed stays passed when the graph is edited. -/
theorem Passed.revise {revised : Session} (revision : Revision session revised) {event : EventId}
    (inside : event < session.graph.numEvents) (passed : session.Passed event) :
    revised.Passed event := by
  obtain ⟨frames, lineage, behind⟩ := passed
  refine ⟨frames, ?_, behind.trans_eq revision.place_eq.symm⟩
  rw [revision.grown.source_eq event inside, revision.walk_eq]
  exact lineage.mono revision.grown fun _ _ parent => by rw [Walk.parentOf_growBy, parent]

/-- A step passes the event that it enters, and the event was not passed before. -/
theorem passed_step (traced : Traced session past) (unfinished : session.isFinished = false)
    {event : EventId} (entered : session.step.currentEvent? = some event) :
    session.step.Passed event ∧ ¬ session.Passed event := by
  have forward := traced.place_lt_step unfinished
  cases agenda : session.walk.agenda session.graph with
  | nil =>
    rw [currentEvent?, walk_step unfinished,
      Walk.advance_of_agenda_eq_nil traced.wellFormed traced.sound.stands agenda] at entered
    simp [Walk.currentEvent?] at entered
  | cons first rest =>
    obtain ⟨popped, stay, descends⟩ :=
      Walk.descends_of_agenda traced.wellFormed traced.sound.stands agenda
    obtain rfl : first.2 = event := by
      rw [currentEvent?, walk_step unfinished, Walk.currentEvent?, descends.stack_advance]
        at entered
      exact Option.some.inj entered
    have there : session.step.place = ((first.2 :: trailOf stay).reverse : List EventId) := by
      rw [place, walk_step unfinished, descends.place_advance]
    constructor
    · refine ⟨stay, ?_, there.ge⟩
      rw [graph_step, walk_step unfinished]
      exact descends.lineage.mono (.refl _) fun _ _ parent =>
        traced.sound.parentOf_advance traced.wellFormed parent
    · rintro ⟨frames, lineage, behind⟩
      rw [lineage.unique traced.sound.root_parent descends.lineage, ← there] at behind
      exact absurd forward (not_lt_of_ge behind)

end

/-- Every event that was entered is an event of the graph, and it was passed; none was entered
twice. -/
theorem Traced.passed_entered {session : Session} {past : List Session}
    (traced : Traced session past) : session.entered.Nodup ∧
      ∀ event ∈ session.entered, event < session.graph.numEvents ∧ session.Passed event := by
  induction traced with
  | start _ _ log _ => simp [entered, log]
  | @moved earlier session past traced unfinished revision ih =>
    obtain ⟨distinct, passed⟩ := ih
    obtain ⟨move, log, descent, enabled⟩ := log_step_enters traced unfinished
    have grown := revision.grown.numEvents_le
    have list : session.entered = earlier.entered ++ earlier.step.currentEvent?.toList := by
      rw [← descent]
      exact entered_of_log_eq (revision.log_eq.trans log)
    have kept (event : EventId) (inside : event < earlier.step.graph.numEvents)
        (passed : earlier.step.Passed event) :
        event < session.graph.numEvents ∧ session.Passed event :=
      ⟨Nat.lt_of_lt_of_le inside grown, passed.revise revision inside⟩
    rw [list]
    constructor
    · refine List.nodup_append.mpr ⟨distinct, ?_, ?_⟩
      · cases earlier.step.currentEvent? <;> simp
      · rintro event before _ now rfl
        have entered := Option.mem_toList.mp now
        exact (passed_step traced unfinished entered).2 (passed event before).2
    · intro event inside
      rcases List.mem_append.mp inside with before | now
      · obtain ⟨bound, passed⟩ := passed event before
        rw [← graph_step] at bound
        exact kept event bound (passed.step traced unfinished)
      · have entered := Option.mem_toList.mp now
        have bound := Graph.lt_of_isEnabled (enabled event entered)
        rw [← graph_step] at bound
        exact kept event bound (passed_step traced unfinished entered).1

/-- The places of the sessions behind the moves descend from that of the session. -/
theorem Traced.places_descend {session : Session} {past : List Session}
    (traced : Traced session past) : ((session :: past).map place).Pairwise (· > ·) := by
  induction traced with
  | start => simp
  | @moved earlier session past traced unfinished revision descend =>
    have forward : earlier.place < session.place := by
      rw [revision.place_eq]
      exact traced.place_lt_step unfinished
    have beyond := (List.pairwise_cons.mp descend).1
    refine List.pairwise_cons.mpr ⟨fun other listed => ?_, descend⟩
    rcases List.mem_cons.mp listed with rfl | older
    · exact forward
    · exact (beyond other older).trans forward

/-- Each move of the log is into an event that was enabled in the session behind the move, or into
none. -/
theorem Traced.enabled_before {session : Session} {past : List Session}
    (traced : Traced session past) :
    List.Forall₂ (fun move before => ∀ descent, move.descent = some descent →
      before.graph.isEnabled descent.event = true) session.log past := by
  induction traced with
  | start _ _ log _ => simp [log]
  | moved traced unfinished revision older =>
    obtain ⟨move, log, descent, enabled⟩ := log_step_enters traced unfinished
    rw [revision.log_eq, log]
    refine .cons (fun descent' made => enabled descent'.event ?_) older
    rw [← descent, made]
    rfl

/-- After any commands, a step of an unfinished walk goes forward in the order of backtraces, at the
end of which the walk is finished, and the event that it enters is enabled. So the places from which
the moves of the log were made are all different, and so are the events that were entered, each of
which was enabled when it was; the graph may have been edited between any two of the moves. -/
theorem step_goes_forward (rootName result : String) (commands : List Command) :
    let recorded := (Recorded.new rootName result).run commands
    let session := (Session.new rootName result).run commands
    recorded.session = session ∧
      (session.isFinished = false → session.place < session.step.place ∧
        ∃ move, session.step.log = move :: session.log ∧
          move.descent.map Descent.event = session.step.currentEvent? ∧
          ∀ event, session.step.currentEvent? = some event →
            session.graph.isEnabled event = true) ∧
      ((session :: recorded.before).map place).Pairwise (· > ·) ∧
      session.entered.Nodup ∧
      List.Forall₂ (fun move before => ∀ descent, move.descent = some descent →
        before.graph.isEnabled descent.event = true) session.log recorded.before := by
  intro recorded session
  have same : recorded.session = session := Recorded.session_run (.new rootName result) commands
  have traced : Traced session recorded.before := by
    rw [← same]
    exact Traced.run (.new rootName result) (traced_new rootName result) commands
  refine ⟨same, fun unfinished => ⟨traced.place_lt_step unfinished, ?_⟩, traced.places_descend,
    traced.passed_entered.1, traced.enabled_before⟩
  exact log_step_enters traced unfinished

/-- A step from a leaf whose event was disabled meanwhile goes forward to an event that was added
meanwhile. -/
theorem step_goes_forward_edited :
    let commands : List Command :=
      [.addEntity "a", .addEvent 0 1 .templateInstantiation none, .addEvent 1 0 .memoization none,
        .stepN 2, .disableKind .memoization, .addEntity "b",
        .addEvent 1 2 .templateInstantiation none]
    let session := (Session.new "root" "int").run commands
    session.isFinished = false ∧ session.place = ([0, 1] : List EventId) ∧
      session.step.place = ([0, 2] : List EventId) ∧ session.place < session.step.place ∧
      session.graph.isEnabled 1 = false ∧ session.graph.isEnabled 2 = true ∧
      session.entered = [0, 1] ∧ session.entered.Nodup := by
  intro commands session
  have unfinished : session.isFinished = false := by decide
  obtain ⟨_, forward, _, distinct, _⟩ := step_goes_forward "root" "int" commands
  obtain ⟨further, _, _, _, enabled⟩ := forward unfinished
  exact ⟨unfinished, by decide, by decide, further, by decide, enabled 2 (by decide), by decide,
    distinct⟩

end Session

end Retrace
