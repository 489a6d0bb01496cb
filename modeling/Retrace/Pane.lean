import Retrace.Graph
import Retrace.Widget

/-!
# Panes

A pane is a titled box that shows one aspect of a session. A pane that shows a list shows a window
of it, whose offset is kept so that the last page stays full. What a pane hands to the drawing
library is a panel: which lines, in which styles, in a box of which title, for an area of which
size.
-/
namespace Retrace

/-- A share of a length in percent, rounded, a half upwards. -/
def share (percent length : Nat) : Nat := (percent * length + 50) / 100

/-! ## Colours

Each colour of the viewer is named for what it shows. -/

namespace Palette

/-- Plain text. -/
def text : Color := .rgb 0xcd 0xd6 0xf4

/-- The root, and the steps taken in the status bar. -/
def primary : Color := .rgb 0x89 0xb4 0xfa

/-- The current frame, and what wants attention in the status bar. -/
def secondary : Color := .rgb 0xfa 0xb3 0x87

/-- What stands beside the text proper. -/
def comment : Color := .rgb 0x6c 0x70 0x86

/-- The start of a walk. -/
def success : Color := .rgb 0xa6 0xe3 0xa1

/-- The end of a walk. -/
def error : Color := .rgb 0xf3 0x8b 0xa8

/-- Border of the pane in focus. -/
def borderFocused : Color := .rgb 0xf9 0xe2 0xaf

/-- Border of every other pane. -/
def borderNormal : Color := .rgb 0x6c 0x70 0x86

/-- Ground of the current frame and of the status bar. -/
def current : Color := .rgb 0x32 0x32 0x46

/-- Names of entities. -/
def entity : Color := .rgb 0x94 0xe2 0xd5

/-- Kinds of events. -/
def kind : Color := .rgb 0xf9 0xe2 0xaf

/-- Points of instantiation. -/
def location : Color := .rgb 0xb4 0xa5 0x78

/-- Disabled events. -/
def disabled : Color := .rgb 0x96 0x5a 0x6e

/-- Results of evaluations. -/
def result : Color := .rgb 0xf5 0xc2 0xe7

end Palette

namespace Pane

/-! ## Boxes -/

/-- Style of the border of a pane. -/
def borderStyle (focused : Bool) : Style :=
  if focused then { foreground := some Palette.borderFocused, bold := true }
  else .colored Palette.borderNormal

/-- The box of a pane. -/
def box (title : String) (focused : Bool) : Box := { title, border := borderStyle focused }

/-! ## Windows of lists -/

/-- Number of lines on a page of a pane; a pane too low for a line counts as one with a line. -/
def page (height : Nat) : Nat := max (height - 2) 1

/-- The offset nearest to `offset` and not above it that keeps the last page of `total` lines
full. -/
def clampOffset (total page offset : Nat) : Nat := min offset (total - page)

/-- A page from a clamped offset on is full, unless the whole list is shorter than a page. -/
theorem clampOffset_add_le {total page : Nat} (offset : Nat) (long : page ≤ total) :
    clampOffset total page offset + page ≤ total := by
  simp only [clampOffset]
  omega

/-- Clamping again changes nothing. -/
@[simp] theorem clampOffset_clampOffset (total page offset : Nat) :
    clampOffset total page (clampOffset total page offset) = clampOffset total page offset := by
  simp only [clampOffset]
  omega

/-- What drawing a list leaves. -/
structure Drawing where
  /-- The pane. -/
  panel : Panel
  /-- The offset of the window that is shown. -/
  offset : Nat
  deriving DecidableEq, Repr

/-- A list of lines in a box: a page of it, from the clamped offset on. -/
def drawList (box : Box) (width height : Nat) (lines : List Line) (offset : Nat) : Drawing :=
  let offset := clampOffset lines.length (page height) offset
  ⟨⟨.list box ((lines.drop offset).take (page height)), width, height⟩, offset⟩

/-! ## Events as text -/

/-- Style of the name of an event's target. -/
def nameStyle (enabled : Bool) : Style :=
  if enabled then .colored Palette.entity
  else { foreground := some Palette.disabled, crossedOut := true }

/-- Style of the kind of an event. -/
def kindStyle (enabled : Bool) : Style :=
  .colored (if enabled then Palette.kind else Palette.disabled)

/-- The name of the kind of an event; empty for a number that is no event. -/
def kindText (graph : Graph) (event : EventId) : String :=
  (graph.events[event]?.map (·.kind.name)).getD ""

/-- An event by the name of its target and its kind. -/
def eventSpans (graph : Graph) (event : EventId) : List Span :=
  let enabled := graph.isEnabled event
  [⟨graph.name (graph.target event), nameStyle enabled⟩,
    ⟨" (" ++ kindText graph event ++ ")", kindStyle enabled⟩]

/-- The point of instantiation of an event, or a dash. -/
def locationText (graph : Graph) (event : EventId) : String :=
  ((graph.location? event).map (·.text)).getD "-"

end Pane

end Retrace
