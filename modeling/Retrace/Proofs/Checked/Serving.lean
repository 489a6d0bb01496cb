import Retrace.Proofs.Checked.Pane
import Retrace.Proofs.Loading

/-!
# Serving a session with checked access

A session is served by carrying out commands, listing forward traces and drawing its panes, one
request after another, with one cache for the forward pane. Whatever is asked, as long as no request
names an entity that was never given out, all checks succeed, and the answers are those given
without checks. The invariant is `Steady`: the session is reachable, and the cache holds lines about
events of its graph. A request keeps it (`steady_serve`), and so does a run of them
(`steady_serveAll`). The main statement is `serveAll_eq`.
-/
namespace Retrace

/-! ## Events in the log -/

/-- The events that a move keeps note of: those of the frames it left, the one it entered, and the
parent that its discovery replaced. -/
def Move.events (move : Move) : List EventId :=
  move.popped.filterMap Frame.event? ++ (move.descent.map (·.event)).toList ++
    ((move.descent.bind (·.discovery)).bind (·.previousParent)).toList

/-- A move keeps note of events of the graph. -/
theorem Walk.events_advance {graph : Graph} {walk : Walk} (sound : Sound graph walk) :
    ∀ event ∈ (walk.advance graph).2.events, event < graph.numEvents := by
  have left {popped stay : List Frame} (whole : popped ++ stay = walk.stack) :
      ∀ event ∈ popped.filterMap Frame.event?, event < graph.numEvents := by
    intro event listed
    obtain ⟨frame, passed, entered⟩ := List.mem_filterMap.mp listed
    have stacked : frame ∈ walk.stack := whole ▸ List.mem_append_left stay passed
    cases frame with
    | root => contradiction
    | via other => exact Option.some.inj entered ▸ sound.stands.lt_of_mem stacked
  rw [Walk.advance]
  rcases searched : walk.backtrack graph none walk.stack with ⟨popped, none | ⟨event, stay⟩⟩
  · have popped_lt := left (backtrack_append searched)
    simpa [Move.events] using popped_lt
  · have popped_lt := left (backtrack_append searched)
    obtain ⟨named, discovers⟩ := Checked.descent_enter { walk with stack := stay } event
      (graph.target event)
    simp only [Move.events, List.forall_mem_append]
    refine ⟨⟨popped_lt, ?_⟩, ?_⟩
    · simpa [named] using Graph.lt_of_isEnabled (isEnabled_of_backtrack searched)
    · intro parent listed
      simp only [Option.mem_toList, Option.bind_some] at listed
      obtain ⟨discovery, found, noted⟩ := Option.bind_eq_some_iff.mp listed
      rw [discovers discovery found] at noted
      exact (sound.parent_spec noted).1

/-- The log of a session keeps note of events of its graph. -/
theorem Session.Traced.log_lt {session : Session} {past : List Session}
    (traced : Traced session past) :
    ∀ move ∈ session.log, ∀ event ∈ move.events, event < session.graph.numEvents := by
  induction traced with
  | start _ _ log _ => simp [log]
  | @moved earlier session past traced unfinished revision ih =>
    have grown := revision.grown.numEvents_le
    rw [graph_step] at grown
    rw [revision.log_eq, log_step unfinished]
    refine List.forall_mem_cons.mpr ⟨fun event noted => ?_, fun move listed event noted => ?_⟩
    · exact Nat.lt_of_lt_of_le (Walk.events_advance traced.sound event noted) grown
    · exact Nat.lt_of_lt_of_le (ih move listed event noted) grown

/-! ## Requests -/

/-- What is asked of a session with a cache. -/
inductive Request where
  /-- Carry out a command. -/
  | command (command : Session.Command)
  /-- List the forward trace of an entity. -/
  | forward (entity : EntityId) (bound : Option Nat)
  /-- Draw the backtrace pane. -/
  | drawBacktrace (focused : Bool) (width height offset : Nat)
  /-- Draw the forward trace pane. -/
  | drawForward (focused : Bool) (width height offset : Nat)
  /-- Draw the event pane. -/
  | drawEvent (focused : Bool) (width height : Nat)

/-- What is answered to a request. -/
inductive Response where
  /-- What the command reports. -/
  | outcome (outcome : Session.Outcome)
  /-- The lines of the forward trace. -/
  | lines (lines : List ForwardLine)
  /-- A pane with the offset of its window. -/
  | drawing (drawing : Pane.Drawing)
  /-- A pane. -/
  | panel (panel : Panel)
  deriving DecidableEq, Repr

namespace Served

/-- Do what is asked. -/
def serve (served : Served) : Request → Served × Response
  | .command command =>
    let (session, outcome) := served.session.apply command
    ({ served with session }, .outcome outcome)
  | .forward entity bound => (served, .lines (served.session.graph.forward entity bound))
  | .drawBacktrace focused width height offset =>
    (served, .drawing (Pane.drawBacktrace served.session focused width height offset))
  | .drawForward focused width height offset =>
    let (drawing, cache) :=
      Pane.drawForward served.session served.cache focused width height offset
    ({ served with cache }, .drawing drawing)
  | .drawEvent focused width height =>
    (served, .panel (Pane.drawEvent served.session focused width height))

/-- Do all that is asked, in order. -/
def serveAll (served : Served) : List Request → Served × List Response
  | [] => (served, [])
  | request :: rest =>
    let (served, response) := served.serve request
    let (served, responses) := served.serveAll rest
    (served, response :: responses)

end Served

namespace Checked

/-- Do what is asked. -/
def serve (served : Served) : Request → Option (Served × Response)
  | .command command => do
    let (session, outcome) ← apply served.session command
    some ({ served with session }, .outcome outcome)
  | .forward entity bound => do
    let lines ← forward served.session.graph entity bound
    some (served, .lines lines)
  | .drawBacktrace focused width height offset => do
    let drawing ← drawBacktrace served.session focused width height offset
    some (served, .drawing drawing)
  | .drawForward focused width height offset => do
    let (drawing, cache) ←
      drawForward served.session served.cache focused width height offset
    some ({ served with cache }, .drawing drawing)
  | .drawEvent focused width height => do
    let panel ← drawEvent served.session focused width height
    some (served, .panel panel)

/-- Do all that is asked, in order. -/
def serveAll (served : Served) : List Request → Option (Served × List Response)
  | [] => some (served, [])
  | request :: rest => do
    let (served, response) ← serve served request
    let (served, responses) ← serveAll served rest
    some (served, response :: responses)

/-- A request names no entity that was not given out. -/
def Admits (served : Served) : Request → Prop
  | .command command => Issued served.session.graph command
  | .forward entity _ => entity < served.session.graph.numEntities
  | _ => True

/-- None of the requests names an entity that was not given out when its turn comes. -/
def AdmitsAll (served : Served) : List Request → Prop
  | [] => True
  | request :: rest => Admits served request ∧ AdmitsAll (served.serve request).1 rest

/-- What makes the checks of a session with a cache succeed. -/
structure Steady (served : Served) : Prop where
  /-- Commands made the session. -/
  reachable : served.session.Reachable
  /-- The lines of the cache are about events of the graph. -/
  listable : ∀ line ∈ served.cache.lines, Listable served.session.graph line

/-- Every request leaves the checks to succeed. -/
theorem steady_serve {served : Served} (steady : Steady served) (request : Request) :
    Steady (served.serve request).1 := by
  obtain ⟨reachable, listable⟩ := steady
  cases request with
  | command command =>
    have grown := (served.session.evolves_apply command).toExtends
    exact ⟨reachable.apply command, fun line listed => (listable line listed).mono grown⟩
  | drawForward focused width height offset =>
    refine ⟨reachable, ?_⟩
    simp only [Served.serve, Pane.drawForward]
    split
    · exact listable
    · exact listable_refresh reachable listable
  | _ => exact ⟨reachable, listable⟩

/-- All checks of a request succeed, and then it is answered as without checks. -/
theorem serve_eq {served : Served} (steady : Steady served) {request : Request}
    (admits : Admits served request) : serve served request = some (served.serve request) := by
  obtain ⟨reachable, listable⟩ := steady
  cases request with
  | command command => simp [serve, Served.serve, apply_eq reachable admits]
  | forward entity bound =>
    simp [serve, Served.serve, forward_eq (stable reachable).wellFormed admits]
  | drawBacktrace focused width height offset =>
    simp [serve, Served.serve, drawBacktrace_eq (stable reachable)]
  | drawForward focused width height offset =>
    simp [serve, Served.serve, drawForward_eq reachable listable]
  | drawEvent focused width height => simp [serve, Served.serve, drawEvent_eq reachable]

/-- So do requests one after another. -/
theorem steady_serveAll {served : Served} (steady : Steady served) (requests : List Request) :
    Steady (served.serveAll requests).1 := by
  induction requests generalizing served with
  | nil => exact steady
  | cons request rest ih => exact ih (steady_serve steady request)

/-- So are requests one after another. -/
theorem serveAll_eq_of_steady {served : Served} (steady : Steady served)
    {requests : List Request} (admits : AdmitsAll served requests) :
    serveAll served requests = some (served.serveAll requests) := by
  induction requests generalizing served with
  | nil => rfl
  | cons request rest ih =>
    obtain ⟨first, later⟩ := admits
    simp [serveAll, Served.serveAll, serve_eq steady first, ih (steady_serve steady request) later]

/-- A session that is new or loaded from a trace. -/
inductive Initial : Session → Prop
  /-- A session whose graph holds only the root. -/
  | new (rootName result : String) : Initial (.new rootName result)
  /-- The session of a trace. -/
  | loaded {reader : Markup.Reader} {loader : Loader} {text : String} {session : Session} :
    loader.load text reader = .ok session → Initial session

/-- Commands make every session that is new or loaded. -/
theorem Initial.reachable {session : Session} (initial : Initial session) : session.Reachable := by
  cases initial with
  | new rootName result => exact ⟨rootName, result, [], rfl⟩
  | loaded loaded => exact Loader.reachable_of_load loaded

/-- Whatever is asked of a session that is new or loaded, by requests that name only entities given
out before, every access is to what exists, no difference goes below zero, and what is left by
taking back a move is what it entered. Throughout, the walk has an entry for each entity, and the
events on its stack, in its log and in the cache are events of the graph. -/
theorem serveAll_eq {session : Session} (initial : Initial session) {requests : List Request}
    (admits : AdmitsAll (.start session) requests) :
    serveAll (.start session) requests = some ((Served.start session).serveAll requests) ∧
      let served := ((Served.start session).serveAll requests).1
      let graph := served.session.graph
      served.session.walk.Fits graph ∧
        (∀ event, .via event ∈ served.session.walk.stack → event < graph.numEvents) ∧
        (∀ move ∈ served.session.log, ∀ event ∈ move.events, event < graph.numEvents) ∧
        ∀ line ∈ served.cache.lines, line.event < graph.numEvents := by
  have start : Steady (.start session) := ⟨initial.reachable, by simp [Served.start]⟩
  have last := steady_serveAll start requests
  have settled := stable last.reachable
  obtain ⟨past, traced⟩ := last.reachable.traced
  exact ⟨serveAll_eq_of_steady start admits, settled.fits, settled.stacked, traced.log_lt,
    fun line listed => (last.listable line listed).event_lt⟩

/-- A session that grows below the current entity, and is then taken back, is drawn with windows
that are asked to start behind the last line. -/
theorem serveAll_eq_grown :
    let requests : List Request :=
      [.command (.addEntity "A"), .command (.addEvent 0 1 .memoization none),
        .command .step, .command (.addEvent 1 1 .memoization none), .drawForward true 20 5 7,
        .command .step, .drawBacktrace false 20 4 9, .command (.addEntity "B"),
        .command (.addEvent 1 2 .memoization none), .forward 2 (some 1), .drawForward true 20 3 9,
        .drawEvent false 20 8, .command (.stepBackN 3), .command .reset]
    AdmitsAll (.start (.new "R" "x")) requests ∧
      serveAll (.start (.new "R" "x")) requests =
        some ((Served.start (.new "R" "x")).serveAll requests) := by
  intro requests
  have admits : AdmitsAll (.start (.new "R" "x")) requests := by
    refine ⟨trivial, ⟨by decide, by decide⟩, trivial, ⟨by decide, by decide⟩, trivial, trivial,
      trivial, trivial, ⟨by decide, by decide⟩, ?_, trivial, trivial, trivial, trivial, trivial⟩
    exact (by decide : 2 < 3)
  exact ⟨admits, (serveAll_eq (.new "R" "x") admits).1⟩

/-- The forward trace of an entity that was never given out is not listed. -/
example : (serveAll (.start (.new "R" "x")) [.command .step, .forward 1 none]).isNone = true := by
  decide

end Checked

end Retrace
