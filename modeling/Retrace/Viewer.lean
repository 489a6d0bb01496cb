import Retrace.Forward

/-!
# The viewer

What a reader of a trace works with: a session, the pane in focus, how far the lists are scrolled,
the message of the status bar, a prompt for filters, and whether the walk plays by itself. Keys
change the viewer; drawing it is told in the module on its layout.
-/
namespace Retrace

/-- The pane that the arrows up and down are for. -/
inductive Focus where
  /-- The backtrace of the current entity. -/
  | backtrace
  /-- The forward trace of the current entity. -/
  | forward
  /-- The current event. -/
  | event
  deriving DecidableEq, Repr

/-- The pane that comes into focus after another one. -/
def Focus.next : Focus → Focus
  | backtrace => forward
  | forward => event
  | event => backtrace

/-- A key. -/
inductive Key where
  /-- The key of a character. -/
  | char (char : Char)
  /-- The arrow to the left. -/
  | left
  /-- The arrow to the right. -/
  | right
  /-- The arrow up. -/
  | up
  /-- The arrow down. -/
  | down
  /-- The tabulator. -/
  | tab
  /-- The end of a line. -/
  | enter
  /-- Takes back a character. -/
  | backspace
  /-- Leaves the prompt. -/
  | escape
  /-- Any other key. -/
  | other
  deriving DecidableEq, Repr

/-- State of the viewer. -/
structure Viewer where
  /-- The trace and the walk through it. -/
  session : Session
  /-- The pane in focus. -/
  focus : Focus := .backtrace
  /-- First line shown of the backtrace. -/
  backtraceScroll : Nat := 0
  /-- First line shown of the forward trace. -/
  forwardScroll : Nat := 0
  /-- The last forward trace made. -/
  cache : ForwardCache := {}
  /-- Whether the viewer is to end. -/
  quitting : Bool := false
  /-- What the status bar says. -/
  message : String := "Metaprogram started"
  /-- Whether the walk plays by itself. -/
  playing : Bool := false
  /-- Text in the filter prompt; nothing while it is closed. -/
  prompt : Option String := none
  deriving DecidableEq, Repr

namespace Viewer

/-- The viewer of a session. -/
def new (session : Session) : Viewer := { session }

/-- The viewer with a message. -/
def say (viewer : Viewer) (message : String) : Viewer := { viewer with message }

/-- The viewer with playing switched off. -/
def stopPlaying (viewer : Viewer) : Viewer := { viewer with playing := false }

/-- The viewer at another place of its walk, with both lists scrolled to their starts. -/
def moveTo (viewer : Viewer) (session : Session) : Viewer :=
  { viewer with session, backtraceScroll := 0, forwardScroll := 0 }

/-! ## Keys -/

/-- One step on. -/
def stepForward (viewer : Viewer) : Viewer :=
  if viewer.session.isFinished then viewer.say "Metaprogram finished"
  else
    let session := viewer.session.step
    let message := if session.isFinished then "Metaprogram finished" else "Stepped forward"
    (viewer.moveTo session).say message

/-- One step back. -/
def stepBackward (viewer : Viewer) : Viewer :=
  if viewer.session.isAtStart then viewer.say "Metaprogram is at the start"
  else (viewer.moveTo viewer.session.stepBack).say "Stepped backward"

/-- Up to `count` steps on. -/
def stepMany (viewer : Viewer) (count : Nat) : Viewer :=
  let (session, taken) := viewer.session.stepN count
  (viewer.moveTo session).say ("Stepped forward " ++ toString taken ++ " step(s)")

/-- Over what the current entity instantiates. -/
def stepOver (viewer : Viewer) : Viewer :=
  let (session, taken) := viewer.session.stepOver
  (viewer.moveTo session).say ("Stepped over " ++ toString taken ++ " step(s)")

/-- To the end of the walk. -/
def jumpToEnd (viewer : Viewer) : Viewer :=
  let (session, taken) := viewer.session.continueToEnd
  (viewer.moveTo session).say ("Metaprogram finished after " ++ toString taken ++ " step(s)")

/-- To the start of the walk. -/
def jumpToStart (viewer : Viewer) : Viewer :=
  (viewer.moveTo viewer.session.rewind.1).say "Jumped to start"

/-- Without the memoization events. -/
def hideMemoization (viewer : Viewer) : Viewer :=
  let (session, count) := viewer.session.disableKind .memoization
  { viewer with session }.say ("Disabled " ++ toString count ++ " memoization event(s)")

/-- Playing switched on or off. -/
def togglePlaying (viewer : Viewer) : Viewer :=
  let playing := !viewer.playing
  { viewer with playing }.say (if playing then "Playing..." else "Paused")

/-- The viewer with the scrolling of the list in focus changed. -/
def scroll (viewer : Viewer) (change : Nat → Nat) : Viewer :=
  match viewer.focus with
  | .backtrace => { viewer with backtraceScroll := change viewer.backtraceScroll }
  | .forward => { viewer with forwardScroll := change viewer.forwardScroll }
  | .event => viewer

/-- The press of a character while the prompt is closed. -/
def pressChar (viewer : Viewer) (char : Char) (held : Bool) : Viewer :=
  if char = 'q' ∨ char = 'Q' then { viewer with quitting := true }
  else if '1' ≤ char ∧ char ≤ '9' then
    viewer.stopPlaying.stepMany (char.toNat - '0'.toNat)
  else if char = 'h' then viewer.stopPlaying.stepBackward
  else if char = 'l' then viewer.stopPlaying.stepForward
  else if char = 's' then viewer.stopPlaying.stepOver
  else if char = 'm' then viewer.hideMemoization
  else if char = '/' then { viewer.stopPlaying with prompt := some "" }
  else if char = ' ' then if held then viewer else viewer.togglePlaying
  else viewer

/-- The press of a key while the prompt is closed. -/
def command (viewer : Viewer) (key : Key) (held : Bool) : Viewer :=
  match key with
  | .char char => viewer.pressChar char held
  | .left => viewer.stopPlaying.stepBackward
  | .right => viewer.stopPlaying.stepForward
  | .up => viewer.scroll (· - 1)
  | .down => viewer.scroll fun offset => min (offset + 1) Text.maxWord
  | .tab => { viewer with focus := viewer.focus.next }
  | .enter => viewer.stopPlaying.jumpToEnd
  | .backspace => viewer.stopPlaying.jumpToStart
  | .escape | .other => viewer

/-- The prompt closed with its text: events are disabled whose targets have names that contain the
text without the blanks at its ends. -/
def submit (viewer : Viewer) (text : String) : Viewer :=
  let fragment := String.ofList (Text.trim text.toList)
  let viewer := { viewer with prompt := none }
  if fragment.isEmpty then viewer.say "Filter cancelled"
  else
    let (session, count) := viewer.session.disableTo fragment
    { viewer with session }.say
      ("Disabled " ++ toString count ++ " event(s) matching \"" ++ fragment ++ "\"")

/-- The press of a key while the prompt holds `text`. -/
def edit (viewer : Viewer) (text : String) : Key → Viewer
  | .char char => { viewer with prompt := some (text.push char) }
  | .backspace => { viewer with prompt := some (String.ofList text.toList.dropLast) }
  | .escape => { viewer with prompt := none }.say "Filter cancelled"
  | .enter => viewer.submit text
  | _ => viewer

/-- The press of a key. A press of the space bar that follows the last one too soon is taken for a
key held down. -/
def press (viewer : Viewer) (key : Key) (held : Bool) : Viewer :=
  match viewer.prompt with
  | some text => viewer.edit text key
  | none => viewer.command key held

/-! ## Playing -/

/-- One step of a walk that plays by itself. -/
def play (viewer : Viewer) : Viewer :=
  if viewer.session.isFinished then viewer.stopPlaying.say "Playback complete"
  else { viewer with session := viewer.session.step }.say "Playing..."

/-- The events disabled of which a condition holds, and how many were enabled. -/
def disableIf (viewer : Viewer) (condition : Graph → EventId → Bool) : Viewer × Nat :=
  let (session, count) := viewer.session.disableIf condition
  ({ viewer with session }, count)

end Viewer

end Retrace
