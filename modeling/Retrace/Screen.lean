import Retrace.Text
import Retrace.Widget

/-!
# Plain screens

A screen is a list of rows, and a row is a list of cells, each one character in its style. This is a
drawing library for texts whose characters are all one column wide: it gives every character a cell
of its own. A line is cut where its row ends, and a row is filled where its line ends.

A screen can be written as the text that makes a terminal show it: the style of a span is set by an
escape sequence before its characters.
-/
namespace Retrace

/-- A place of a screen. -/
structure Cell where
  /-- The character shown. -/
  char : Char
  /-- How it looks. -/
  style : Style
  deriving DecidableEq, Repr

/-- A row of a screen, from the left. -/
abbrev Row := List Cell

/-- Rows from the top. -/
abbrev Screen := List Row

/-- An empty cell. -/
def Cell.blank (style : Style) : Cell := ⟨' ', style⟩

/-! ## Styles -/

namespace Color

/-- Hexadecimal digit of a number below sixteen. -/
def hexDigit (value : Nat) : Char :=
  if value < 10 then Char.ofNat ('0'.toNat + value) else Char.ofNat ('a'.toNat + value - 10)

/-- Two hexadecimal digits of a byte. -/
def hexByte (byte : UInt8) : List Char :=
  [hexDigit (byte.toNat / 16), hexDigit (byte.toNat % 16)]

/-- A colour as text: a name, or six hexadecimal digits. -/
def text : Color → String
  | black => "black"
  | rgb red green blue => String.ofList (hexByte red ++ hexByte green ++ hexByte blue)

end Color

/-- A style with another one laid over it: its colours replace those below where it sets them,
and its marks are added. -/
def Style.overlay (below above : Style) : Style where
  foreground := above.foreground.or below.foreground
  background := above.background.or below.background
  bold := below.bold || above.bold
  dim := below.dim || above.dim
  crossedOut := below.crossedOut || above.crossedOut

/-- A style looks the same on a plain ground. -/
@[simp] theorem Style.plain_overlay (style : Style) : plain.overlay style = style := by
  simp [plain, overlay]

/-! ## Rows -/

/-- The cells of a span over a style. -/
def Span.cells (ground : Style) (span : Span) : Row :=
  span.text.toList.map fun char => ⟨char, ground.overlay span.style⟩

/-- One more character at the front of a span is one more cell. -/
theorem Span.cells_toString_append (cell : Cell) (text : String) :
    Span.cells .plain ⟨cell.char.toString ++ text, cell.style⟩ =
      cell :: Span.cells .plain ⟨text, cell.style⟩ := by
  simp [Span.cells]

namespace Row

/-- A row of one cell again and again. -/
def uniform (width : Nat) (cell : Cell) : Row := List.replicate width cell

/-- Cells cut or filled on the right to a width. -/
def fitLeft (width : Nat) (filler : Cell) (cells : Row) : Row :=
  (cells ++ uniform (width - cells.length) filler).take width

/-- Cells cut on the right or filled on the left to a width. -/
def fitRight (width : Nat) (filler : Cell) (cells : Row) : Row :=
  (uniform (width - cells.length) filler ++ cells).take width

/-- The characters of a row. -/
def text (row : Row) : String := String.ofList (row.map (·.char))

/-- A row as its longest stretches of one style. -/
def spans : Row → List Span
  | [] => []
  | cell :: row =>
    match spans row with
    | [] => [⟨cell.char.toString, cell.style⟩]
    | span :: rest =>
      if span.style = cell.style then ⟨cell.char.toString ++ span.text, cell.style⟩ :: rest
      else ⟨cell.char.toString, cell.style⟩ :: span :: rest

/-- The spans of a row hold its cells, in order. -/
theorem flatMap_spans (row : Row) : row.spans.flatMap (Span.cells .plain) = row := by
  induction row with
  | nil => rfl
  | cons cell row ih =>
    have alone := Span.cells_toString_append cell ""
    rw [String.append_empty] at alone
    rw [spans]
    split
    · rename_i found
      rw [found, List.flatMap_nil] at ih
      rw [← ih, List.flatMap_cons, alone]
      rfl
    · rename_i span rest found
      rw [found, List.flatMap_cons] at ih
      split
      · rename_i same
        rw [List.flatMap_cons, Span.cells_toString_append, ← same, List.cons_append, ih]
      · rw [List.flatMap_cons, List.flatMap_cons, alone, ih]
        rfl

/-- A uniform row has its width. -/
@[simp] theorem length_uniform (width : Nat) (cell : Cell) :
    (uniform width cell).length = width := by
  simp [uniform]

end Row

/-! ## Lines that go on in the next row -/

/-- How far a line is broken into rows. -/
structure Wrapping where
  /-- The rows that are full, the newest first. -/
  rows : List Row := []
  /-- The row in the making. -/
  row : Row := []
  /-- The blanks after it. -/
  gap : Row := []
  /-- The word after these. -/
  word : Row := []

namespace Wrapping

/-- Whether a row may end at a character. A space that is not to be broken is no such place. -/
def breaksAt (char : Char) : Bool :=
  char == '\u200B' || (Text.isBlank char && char != '\u00A0')

/-- The row with the blanks and the word after it. -/
def join (wrapping : Wrapping) : Wrapping :=
  { rows := wrapping.rows, row := wrapping.row ++ wrapping.gap ++ wrapping.word }

/-- One more cell, in the gap or in the word. -/
def append (wrapping : Wrapping) (cell : Cell) : Wrapping :=
  if breaksAt cell.char then { wrapping with gap := wrapping.gap ++ [cell] }
  else { wrapping with word := wrapping.word ++ [cell] }

/-- Number of cells since the last full row. -/
def length (wrapping : Wrapping) : Nat :=
  wrapping.row.length + wrapping.gap.length + wrapping.word.length

/-- The row with what is ready for it in rows of a width. A word that ends joins the row, and so do
the blanks and the word at the start of a row when they are as long as the row. -/
def settle (width : Nat) (blank : Bool) (wrapping : Wrapping) : Wrapping :=
  let ended := blank && !wrapping.word.isEmpty
  let long := wrapping.row.isEmpty && decide (width ≤ wrapping.length)
  if ended || long then wrapping.join else wrapping

/-- The row is full, and the word goes on in the next one. The blanks that the full row has room for
are left out. -/
def turn (width : Nat) (wrapping : Wrapping) : Wrapping :=
  { wrapping with
    rows := wrapping.row :: wrapping.rows, row := []
    gap := wrapping.gap.drop (width - wrapping.row.length) }

/-- One more cell in rows of a width. A blank at which a row ends is left out. -/
def next (width : Nat) (wrapping : Wrapping) (cell : Cell) : Wrapping :=
  let blank := breaksAt cell.char
  let wrapping := wrapping.settle width blank
  if wrapping.length < width then wrapping.append cell
  else
    let wrapping := wrapping.turn width
    if blank && wrapping.gap.isEmpty then wrapping else wrapping.append cell

/-- The rows of a line that is over. -/
def finish (wrapping : Wrapping) : List Row :=
  let blank := wrapping.row.isEmpty && wrapping.word.isEmpty && !wrapping.gap.isEmpty
  let rows := if blank then [] :: wrapping.rows else wrapping.rows
  let last := wrapping.join.row
  (if last.isEmpty && !rows.isEmpty then rows else last :: rows).reverse

/-- Cells broken into rows of a width. -/
def rowsOf (width : Nat) (cells : Row) : List Row := (cells.foldl (next width) {}).finish

end Wrapping

namespace Line

/-- The cells of a line over a style. -/
def cells (below : Style) (line : Line) : Row :=
  line.spans.flatMap (Span.cells (below.overlay line.ground))

/-- A line in a row of a width, from the left. -/
def row (width : Nat) (below : Style) (line : Line) : Row :=
  Row.fitLeft width (.blank (below.overlay line.ground)) (line.cells below)

end Line

/-- The lines of a paragraph in rows of a width. -/
def Paragraph.rows (paragraph : Paragraph) (width : Nat) : List Row :=
  paragraph.lines.flatMap fun line =>
    let cells := line.cells paragraph.ground
    let filler := Cell.blank (paragraph.ground.overlay line.ground)
    let broken := if paragraph.wrapped then Wrapping.rowsOf width cells else [cells]
    broken.map (if paragraph.toRight then Row.fitRight width filler else Row.fitLeft width filler)

/-! ## Screens -/

namespace Screen

/-- Rows cut or filled at the bottom to a height. -/
def fit (width height : Nat) (filler : Cell) (rows : List Row) : Screen :=
  (rows ++ List.replicate (height - rows.length) (Row.uniform width filler)).take height

/-- Two screens of one height side by side. -/
def beside (left right : Screen) : Screen := List.zipWith (· ++ ·) left right

end Screen

/-! ## Boxes

The border is made of box drawing characters. The title stands in the upper border from its second
column on and is cut before the last one. -/

namespace Box

/-- A cell of the border over a style. -/
def edge (box : Box) (ground : Style) (char : Char) : Cell := ⟨char, ground.overlay box.border⟩

/-- A row between two cells of the border. -/
def enclose (box : Box) (ground : Style) (width : Nat) (left : Char) (inner : Row)
    (right : Char) : Row :=
  (box.edge ground left :: inner ++ [box.edge ground right]).take width

/-- The row of the upper border. -/
def top (box : Box) (ground : Style) (width : Nat) : Row :=
  box.enclose ground width '┌'
    (Row.fitLeft (width - 2) (box.edge ground '─') (box.title.toList.map (box.edge ground))) '┐'

/-- The row of the lower border. -/
def bottom (box : Box) (ground : Style) (width : Nat) : Row :=
  box.enclose ground width '└' (Row.uniform (width - 2) (box.edge ground '─')) '┘'

/-- The columns that a box of a width has for lines. -/
def room (box : Box) (width : Nat) : Nat := width - 2 - box.margin

/-- A row of the box between the borders. -/
def inner (box : Box) (ground : Style) (width : Nat) (row : Row) : Row :=
  (Row.uniform box.margin (.blank ground) ++ row).take (width - 2)

/-- What stands between the borders of a box of a width and a height: as many rows as there is room
for, and empty ones below them. -/
def filling (box : Box) (ground : Style) (width height : Nat) (rows : List Row) : Screen :=
  Screen.fit (width - 2) (height - 2) (.blank ground) (rows.map (box.inner ground width))

/-- The box in a width and a height with rows in it. -/
def draw (box : Box) (ground : Style) (width height : Nat) (rows : List Row) : Screen :=
  (box.top ground width ::
    (box.filling ground width height rows).map (box.enclose ground width '│' · '│') ++
      [box.bottom ground width]).take height

end Box

/-- A panel drawn in its area. -/
def Panel.screen : Panel → Screen
  | ⟨.list box lines, width, height⟩ =>
    box.draw .plain width height (lines.map (Line.row (box.room width) .plain))
  | ⟨.paragraph paragraph, width, height⟩ =>
    match paragraph.box with
    | some box => box.draw paragraph.ground width height (paragraph.rows (box.room width))
    | none => Screen.fit width height (.blank paragraph.ground) (paragraph.rows width)

/-! ## Terminals -/

/-- The parameters that set a colour; `base` is 30 for the character and 40 for its ground. -/
def Color.ansi (base : Nat) : Color → List String
  | black => [toString base]
  | rgb red green blue =>
    [toString (base + 8), "2", toString red.toNat, toString green.toNat, toString blue.toNat]

/-- The parameters that set a style, after those that reset the one before. -/
def Style.ansi (style : Style) : List String :=
  ["0"] ++ ((style.foreground.map (·.ansi 30)).getD []) ++
    ((style.background.map (·.ansi 40)).getD []) ++
    (if style.bold then ["1"] else []) ++ (if style.dim then ["2"] else []) ++
    if style.crossedOut then ["9"] else []

/-- A span with its style. -/
def Span.ansi (span : Span) : String :=
  "\x1b[" ++ String.intercalate ";" span.style.ansi ++ "m" ++ span.text

/-- A row with its styles. -/
def Row.ansi (row : Row) : String := String.join (row.spans.map Span.ansi) ++ "\x1b[0m"

/-- A screen on a cleared terminal. -/
def Screen.ansi (screen : Screen) : String :=
  "\x1b[2J\x1b[H" ++ String.intercalate "\r\n" (screen.map Row.ansi)

end Retrace
