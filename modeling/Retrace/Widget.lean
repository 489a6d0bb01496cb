/-!
# Widgets

What a pane hands to a drawing library, and nothing of what the library makes of it: how characters
are laid out in rows and columns is for the library to know. Text comes in lines, which are spans of
one style each. Lines stand in a list, one line to a row, or in a paragraph, and both may stand in a
box, a border with a title. A panel is a widget with the size of the area that it is drawn in.
-/
namespace Retrace

/-! ## Styles -/

/-- A colour. -/
inductive Color where
  /-- The black of the terminal. -/
  | black
  /-- A mixture of red, green and blue light. -/
  | rgb (red green blue : UInt8)
  deriving DecidableEq, Repr

/-- How a character looks. A style may leave its colours open. -/
structure Style where
  /-- Colour of the character. -/
  foreground : Option Color := none
  /-- Colour behind the character. -/
  background : Option Color := none
  /-- Whether the character is bold. -/
  bold : Bool := false
  /-- Whether the character is dim. -/
  dim : Bool := false
  /-- Whether the character is crossed out. -/
  crossedOut : Bool := false
  deriving DecidableEq, Repr

namespace Style

/-- The style that sets nothing. -/
def plain : Style := {}

/-- The style that sets only the colour of the character. -/
def colored (color : Color) : Style := { foreground := some color }

end Style

/-! ## Lines -/

/-- Characters of one style. -/
structure Span where
  /-- The characters. -/
  text : String
  /-- How they look. -/
  style : Style := {}
  deriving DecidableEq, Repr

/-- Spans next to each other. -/
structure Line where
  /-- The spans, from the left. -/
  spans : List Span
  /-- Style of the whole row in which the line stands, under the styles of the spans. -/
  ground : Style := {}
  deriving DecidableEq, Repr

/-- A line of one style. -/
def Line.ofText (text : String) (style : Style) : Line := { spans := [⟨text, style⟩] }

/-! ## Widgets -/

/-- A border with a title, around the lines of a widget. -/
structure Box where
  /-- Title in the upper border. -/
  title : String
  /-- Style of the border and the title. -/
  border : Style
  /-- Empty columns between the left border and the lines. -/
  margin : Nat := 0
  deriving DecidableEq, Repr

/-- Lines as running text. -/
structure Paragraph where
  /-- The lines, from the top. -/
  lines : List Line
  /-- Style of the whole area, under the border and the lines. -/
  ground : Style := {}
  /-- The border, if there is one. -/
  box : Option Box := none
  /-- Whether the lines stand at the right end of their rows. -/
  toRight : Bool := false
  /-- Whether a line that does not fit into a row goes on in the next one, the blanks at the start
  of a row kept. -/
  wrapped : Bool := false
  deriving DecidableEq, Repr

/-- What is drawn in an area of the screen. -/
inductive Widget where
  /-- A list in a box: each line has a row, from the first row on, and is cut where the row ends. -/
  | list (box : Box) (lines : List Line)
  /-- A paragraph. -/
  | paragraph (paragraph : Paragraph)
  deriving DecidableEq, Repr

/-- A widget with the size of its area. -/
structure Panel where
  /-- The widget. -/
  widget : Widget
  /-- Number of columns of the area. -/
  width : Nat
  /-- Number of rows of the area. -/
  height : Nat
  deriving DecidableEq, Repr

end Retrace
