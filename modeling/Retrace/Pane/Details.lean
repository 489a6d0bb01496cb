import Retrace.Pane
import Retrace.Session

/-!
# The current event and the status bar

The event pane shows the current event with its parts, the result of the evaluation, and the size of
the graph.

The status bar is one row with what the viewer has to say on the left and the keys it understands on
the right. While the filter prompt is open it takes the place of the left part. An indicator at the
right end tells whether the walk plays by itself or stands at one of its ends.
-/
namespace Retrace.Pane

/-! ## The event pane -/

/-- A line with a label and a value. -/
def labelled (label value : String) (style : Style) : Line :=
  { spans := [⟨label, .colored Palette.comment⟩, ⟨value, style⟩] }

/-- The lines of an event. -/
def eventLines (graph : Graph) (event : EventId) : List Line :=
  [labelled "Entity:   " (graph.name (graph.target event))
      { foreground := some Palette.entity, bold := true },
    labelled "Kind:     " (kindText graph event) (.colored Palette.kind),
    labelled "Source:   " (graph.name (graph.source event)) (.colored Palette.text),
    labelled "At:       " (locationText graph event) (.colored Palette.location)]

/-- The lines about where a walk stands: its current event, or that it is at one of its ends. -/
def positionLines (session : Session) : List Line :=
  match session.currentEvent? with
  | some event => eventLines session.graph event
  | none =>
    let text := if session.isFinished then "Metaprogram finished" else "Metaprogram started"
    [.ofText text (.colored Palette.text)]

/-- The size of a graph and how much of it is discovered. -/
def sizeText (session : Session) : String :=
  toString session.graph.numEntities ++ " entities, " ++
    toString session.graph.numEvents ++ " events (" ++
    toString session.graph.numDisabled ++ " disabled), " ++
    toString session.walk.numDiscovered ++ " discovered"

/-- The lines of the event pane. -/
def detailLines (session : Session) : List Line :=
  positionLines session ++
    [{ spans := [] },
      labelled "Result:   " session.result (.colored Palette.result),
      labelled "Graph:    " (sizeText session) (.colored Palette.text)]

/-- The event pane. Lines that are too long go on in the next row. -/
def drawEvent (session : Session) (focused : Bool) (width height : Nat) : Panel :=
  let details : Paragraph :=
    { lines := detailLines session, box := some { box " Event " focused with margin := 1 }
      wrapped := true }
  ⟨.paragraph details, width, height⟩

/-! ## The status bar -/

/-- What the status bar shows. -/
structure Status where
  /-- What the viewer did last. -/
  message : String
  /-- Number of steps since the start. -/
  steps : Nat
  /-- Number of frames above the root frame. -/
  depth : Nat
  /-- Whether the walk is at its start. -/
  atStart : Bool := false
  /-- Whether the walk is finished. -/
  finished : Bool := false
  /-- Whether the walk plays by itself. -/
  playing : Bool := false
  /-- Text in the filter prompt; nothing while it is closed. -/
  prompt : Option String := none
  deriving DecidableEq, Repr

namespace Status

/-- Style of the bar. -/
def barStyle : Style := { background := some Palette.current }

/-- Text in a colour on the bar. -/
def barText (color : Color) : Style := { barStyle with foreground := some color }

/-- Black text on a colour. -/
def plate (color : Color) : Style := { foreground := some .black, background := some color }

/-- Bold black text on a colour. -/
def boldPlate (color : Color) : Style := { plate color with bold := true }

/-- The left part of the bar. -/
def left (status : Status) : List Span :=
  match status.prompt with
  | some text =>
    [⟨" Disable events to: ", boldPlate Palette.secondary⟩,
      ⟨" " ++ text ++ "▏", barText Palette.text⟩]
  | none =>
    [⟨" Step " ++ toString status.steps ++ " | Depth " ++ toString status.depth ++ " ",
        boldPlate Palette.primary⟩,
      ⟨" | ", barText Palette.comment⟩,
      ⟨" " ++ status.message ++ " ", barText Palette.text⟩]

/-- A line between two groups of the bar. -/
def divider : Span := ⟨"│", barText Palette.comment⟩

/-- Keys and what they do. -/
def hint (keys meaning : String) : List Span :=
  [⟨keys, plate Palette.comment⟩, ⟨meaning, barText Palette.text⟩]

/-- Every group of keys. -/
def hints : List (List Span) :=
  [hint " ←/→ " " step ", hint " s " " over ", hint " m / " " filter ",
    hint " ↵ / ⌫ " " end/start ", hint "q" " quit "]

/-- The indicator at the right end and its colour. Playing goes before the end of the walk, and
the end before the start. -/
def indicator? (status : Status) : Option (String × Color) :=
  if status.playing then some (" ▶ PLAYING ", Palette.secondary)
  else if status.finished then some (" END ", Palette.error)
  else if status.atStart then some (" START ", Palette.success)
  else none

/-- The right part of the bar. -/
def right (status : Status) : List Span :=
  List.intercalate [divider, ⟨" ", barText Palette.text⟩] hints ++
    match status.indicator? with
    | some (text, color) => [divider, ⟨text, boldPlate color⟩]
    | none => []

/-- Number of columns of the left part: half of the bar. -/
def leftWidth (width : Nat) : Nat := share 50 width

/-- The left part of the bar in its half of a width. -/
def leftPanel (status : Status) (width height : Nat) : Panel :=
  ⟨.paragraph { lines := [{ spans := status.left }], ground := barStyle }, leftWidth width, height⟩

/-- The right part of the bar in its half of a width. -/
def rightPanel (status : Status) (width height : Nat) : Panel :=
  ⟨.paragraph { lines := [{ spans := status.right }], ground := barStyle, toRight := true },
    width - leftWidth width, height⟩

end Status

end Retrace.Pane
