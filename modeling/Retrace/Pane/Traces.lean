import Retrace.Forward
import Retrace.Pane

/-!
# The backtrace and the forward trace

The backtrace says why the current entity is instantiated: the frames of the walk like the stack of
calls in a debugger, the innermost first and numbered from zero, and the root last.

The forward trace says what the current entity goes on to instantiate, as a tree below its name.
Events whose targets the walk has discovered are dim, and repeated events carry a mark. Once the
walk is finished the pane says so and shows no list.
-/
namespace Retrace.Pane

/-! ## The backtrace -/

/-- The number of a frame, in four columns or as many as it needs. -/
def frameMarker (index : Nat) : String :=
  let digits := toString index
  ("#" ++ digits).pushn ' ' (3 - digits.length)

/-- The line of a frame. -/
def frameLine (graph : Graph) (index : Nat) (event : EventId) : Line :=
  let current := index == 0
  let marker : Style :=
    if current then { foreground := some Palette.secondary, bold := true }
    else .colored Palette.comment
  { spans :=
      ⟨frameMarker index, marker⟩ :: eventSpans graph event ++
        [⟨"  at " ++ locationText graph event, .colored Palette.location⟩]
    ground := if current then { background := some Palette.current } else {} }

/-- The line of the root, below `depth` frames. -/
def rootLine (graph : Graph) (depth : Nat) : Line :=
  { spans :=
      [⟨frameMarker depth, .colored Palette.comment⟩,
        ⟨graph.name root, .colored Palette.primary⟩] }

/-- The lines of the backtrace of a session. -/
def backtraceLines (session : Session) : List Line :=
  let trail := session.walk.trail
  trail.mapIdx (frameLine session.graph) ++ [rootLine session.graph trail.length]

/-- Title of the backtrace pane. -/
def backtraceTitle (session : Session) : String :=
  " Backtrace (" ++ toString session.depth ++ ") "

/-- The backtrace pane. -/
def drawBacktrace (session : Session) (focused : Bool) (width height offset : Nat) : Drawing :=
  drawList (box (backtraceTitle session) focused) width height (backtraceLines session) offset

/-! ## The forward trace -/

/-- The branches of the tree before an event at a depth. -/
def branches (depth : Nat) : String :=
  String.join (List.replicate (depth - 1) "│ ") ++ "├ "

/-- The line of an event in a forward trace. -/
def forwardLine (session : Session) (line : ForwardLine) : Line :=
  { spans :=
      ⟨branches line.depth, .colored Palette.comment⟩ ::
        eventSpans session.graph line.event ++
          if line.repeated then [⟨" …", .colored Palette.comment⟩] else []
    ground :=
      { dim := session.walk.isDiscovered (session.graph.target line.event) } }

/-- The lines of a forward trace of the current entity. -/
def forwardLines (session : Session) (trace : List ForwardLine) : List Line :=
  .ofText (session.graph.name session.currentEntity)
      { foreground := some Palette.entity, bold := true } ::
    trace.map (forwardLine session)

/-- Title of the forward trace pane. -/
def forwardTitle : String := " Forward Trace "

/-- The forward trace pane of a finished walk. -/
def drawFinished (focused : Bool) (width height : Nat) : Panel :=
  let note : Paragraph :=
    { lines := [.ofText "(metaprogram finished)" .plain], ground := .colored Palette.comment
      box := some (box forwardTitle focused) }
  ⟨.paragraph note, width, height⟩

/-- The forward trace pane and the cache after drawing it. The trace comes from the cache, and a
finished walk leaves the cache and the offset alone. -/
def drawForward (session : Session) (cache : ForwardCache) (focused : Bool)
    (width height offset : Nat) : Drawing × ForwardCache :=
  if session.isFinished then (⟨drawFinished focused width height, offset⟩, cache)
  else
    let cache := cache.refresh session
    (drawList (box forwardTitle focused) width height (forwardLines session cache.lines) offset,
      cache)

end Retrace.Pane
