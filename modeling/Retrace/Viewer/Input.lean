import Retrace.Pane.Details
import Retrace.Pane.Traces
import Retrace.Screen
import Retrace.Viewer

/-!
# Drawing and running the viewer

The last row of the screen is the status bar. The left column above it holds the backtrace and
below it the current event, and the right column the forward trace. Drawing keeps the windows of
the lists within them and the cache up to date.

A pass of the viewer draws it and then, when it is time, plays one step. Everything that happens to
a viewer is an input, and a run of the viewer is a list of inputs.
-/
namespace Retrace

/-! ## Layout -/

/-- Size of a screen. -/
structure Size where
  /-- Number of columns. -/
  width : Nat
  /-- Number of rows. -/
  height : Nat
  deriving DecidableEq, Repr

/-- What the viewer hands to the drawing library. The backtrace stands above the event, both of them
to the left of the forward trace, and below all three are the two parts of the status bar. -/
structure Panels where
  /-- The backtrace pane. -/
  backtrace : Panel
  /-- The event pane. -/
  event : Panel
  /-- The forward trace pane. -/
  forward : Panel
  /-- The left part of the status bar. -/
  statusLeft : Panel
  /-- The right part of the status bar. -/
  statusRight : Panel
  deriving DecidableEq, Repr

namespace Viewer

/-- What the status bar of the viewer shows. -/
def status (viewer : Viewer) : Pane.Status where
  message := viewer.message
  steps := viewer.session.steps
  depth := viewer.session.depth
  atStart := viewer.session.isAtStart
  finished := viewer.session.isFinished
  playing := viewer.playing
  prompt := viewer.prompt

/-- The panels of the viewer, and the viewer after drawing them. -/
def draw (viewer : Viewer) (size : Size) : Viewer × Panels :=
  let session := viewer.session
  let height := size.height - 1
  let leftWidth := share 55 size.width
  let upperHeight := share 65 height
  let backtrace :=
    Pane.drawBacktrace session (viewer.focus == .backtrace) leftWidth upperHeight
      viewer.backtraceScroll
  let event :=
    Pane.drawEvent session (viewer.focus == .event) leftWidth (height - upperHeight)
  let (forward, cache) :=
    Pane.drawForward session viewer.cache (viewer.focus == .forward) (size.width - leftWidth)
      height viewer.forwardScroll
  ({ viewer with backtraceScroll := backtrace.offset, forwardScroll := forward.offset, cache },
    { backtrace := backtrace.panel, event, forward := forward.panel
      statusLeft := viewer.status.leftPanel size.width (size.height - height)
      statusRight := viewer.status.rightPanel size.width (size.height - height) })

/-- One pass: the viewer is drawn and then, unless it is to end, plays one step if it is playing
and the next step is due. -/
def pass (viewer : Viewer) (size : Size) (due : Bool) : Viewer × Panels :=
  let (viewer, panels) := viewer.draw size
  (if !viewer.quitting && viewer.playing && due then viewer.play else viewer, panels)

end Viewer

/-! ## Plain screens of the viewer -/

/-- A pane on a plain screen. -/
def Pane.Drawing.screen (drawing : Drawing) : Screen := drawing.panel.screen

/-- The status bar on a plain screen. -/
def Pane.Status.draw (status : Status) (width height : Nat) : Screen :=
  (status.leftPanel width height).screen.beside (status.rightPanel width height).screen

/-- The panels on a plain screen. -/
def Panels.screen (panels : Panels) : Screen :=
  (panels.backtrace.screen ++ panels.event.screen).beside panels.forward.screen ++
    panels.statusLeft.screen.beside panels.statusRight.screen

namespace Viewer

/-! ## Inputs -/

/-- What happens to a viewer. -/
inductive Input where
  /-- A key is pressed; `held` tells a press of the space bar that follows the last one too
  soon. -/
  | press (key : Key) (held : Bool)
  /-- The viewer is drawn. -/
  | draw (size : Size)
  /-- The viewer is drawn and plays a step if it is playing and the step is due. -/
  | pass (size : Size) (due : Bool)
  /-- The events are disabled of which a condition holds. -/
  | disableIf (condition : Graph → EventId → Bool)

/-- What an input gives back. -/
inductive Reply where
  /-- Nothing. -/
  | done
  /-- The screen that was drawn. -/
  | screen (screen : Screen)
  /-- A number of events. -/
  | count (count : Nat)
  deriving DecidableEq, Repr

/-- The viewer after an input, and what it gives back. -/
def apply (viewer : Viewer) : Input → Viewer × Reply
  | .press key held => (viewer.press key held, .done)
  | .draw size => let (viewer, panels) := viewer.draw size; (viewer, .screen panels.screen)
  | .pass size due => let (viewer, panels) := viewer.pass size due; (viewer, .screen panels.screen)
  | .disableIf condition =>
    let (viewer, count) := viewer.disableIf condition; (viewer, .count count)

/-- The viewer after a list of inputs. -/
def run (viewer : Viewer) (inputs : List Input) : Viewer :=
  inputs.foldl (fun viewer input => (viewer.apply input).1) viewer

end Viewer

end Retrace
