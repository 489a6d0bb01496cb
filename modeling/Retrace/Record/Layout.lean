import Retrace.Record
import Retrace.Text

/-!
# Layouts of records

The record format fixes the fields of a record and their order. It leaves a writer free in how a
line is indented and its fields are set apart, where blank lines and comments stand, and whether a
line feed ends the last line. A layout is one choice of all this, together with the records.

`Layout.text` is the text as it is written, and `Layout.placed` tells where each record of it
starts.
-/
namespace Retrace

namespace Token

/-- The characters that stand for a character between quotes. -/
def escape (char : Char) : List Char :=
  if char = '"' then ['\\', '"']
  else if char = '\\' then ['\\', '\\']
  else if char = '\n' then ['\\', 'n']
  else if char = '\t' then ['\\', 't']
  else [char]

/-- The characters of a token as it is written. The end of the text has none. -/
def spelling : Token → List Char
  | word text => text.toList
  | integer value => Nat.toDigits 10 value
  | quoted text => '"' :: (text.toList.flatMap escape ++ ['"'])
  | dash => ['-']
  | newline => ['\n']
  | endOfText => []

end Token

namespace Record

/-- The word that starts a record. -/
def keyword : Record → String
  | entity .. => "entity"
  | instantiation .. => "instantiation"
  | result _ => "result"

/-- The tokens of a point of instantiation, or the dash for none. -/
def locationFields : Option Location → List Token
  | none => [.dash]
  | some location => [.quoted location.file, .integer location.line, .integer location.column]

/-- The tokens of a record after its keyword. -/
def fields : Record → List Token
  | entity id name => [.integer id, .quoted name]
  | instantiation source target kind location =>
    .integer source :: .integer target :: .word kind.name :: locationFields location
  | result text => [.quoted text]

/-- Whether words of 64 bits hold the numbers of a record. -/
def Fits (record : Record) : Prop :=
  ∀ value, .integer value ∈ record.fields → value ≤ Text.maxWord

/-- Spaces, tabs and carriage returns. -/
structure Blanks where
  /-- The characters. -/
  chars : List Char
  blank : chars ⊆ [' ', '\t', '\r'] := by decide

/-- One or more spaces, tabs or carriage returns. -/
structure Separator extends Blanks where
  nonempty : chars ≠ [] := by decide

/-- What a number sign hides, up to the end of its line. -/
structure Comment where
  /-- The characters after the number sign. -/
  chars : List Char
  oneLine : '\n' ∉ chars := by decide

/-- A record as it is written, with a separator before each of its fields. -/
structure Statement where
  /-- The record. -/
  record : Record
  /-- What stands before each field. -/
  separators : List Separator
  length_eq : separators.length = record.fields.length := by decide

/-- A line as it is written. -/
structure WrittenLine where
  /-- The blanks at its front. -/
  lead : Blanks
  /-- Its record, unless it is blank or a comment only. -/
  statement : Option Statement
  /-- The blanks after the record. -/
  trail : Blanks
  /-- The comment that ends it. -/
  comment : Option Comment

/-- Records as they are written. -/
structure Layout where
  /-- The lines that a line feed ends. -/
  lines : List WrittenLine
  /-- A last line that no line feed ends. -/
  last : Option WrittenLine

/-- The fields of a statement with what stands before them. -/
def Statement.fields (statement : Statement) : List (Separator × Token) :=
  statement.separators.zip statement.record.fields

/-- The characters of a comment. -/
def Comment.text (comment : Comment) : List Char := '#' :: comment.chars

/-- The characters of fields, each after its separator. -/
def spaced (fields : List (Separator × Token)) : List Char :=
  fields.flatMap fun field => field.1.chars ++ field.2.spelling

/-- The characters of a statement. -/
def Statement.text (statement : Statement) : List Char :=
  statement.record.keyword.toList ++ spaced statement.fields

namespace WrittenLine

/-- What a line ends with after its record. -/
def tail (line : WrittenLine) : List Char := line.trail.chars ++ line.comment.elim [] Comment.text

/-- The characters of a line. -/
def text (line : WrittenLine) : List Char :=
  line.lead.chars ++ (line.statement.elim [] Statement.text ++ line.tail)

/-- The record of a line of the given number, at the column of its keyword. -/
def placed (line : WrittenLine) (number : Nat) : Option (Placed Record) :=
  line.statement.map fun statement =>
    ⟨statement.record, number, line.lead.chars.length + 1⟩

end WrittenLine

/-- The records of lines, the first of which has the given number. -/
def placedFrom (number : Nat) : List WrittenLine → List (Placed Record)
  | [] => []
  | line :: lines => (line.placed number).toList ++ placedFrom (number + 1) lines

namespace Layout

/-- All lines of a layout. -/
def allLines (layout : Layout) : List WrittenLine := layout.lines ++ layout.last.toList

/-- The characters of a layout. -/
def chars (layout : Layout) : List Char :=
  layout.lines.flatMap (fun line => line.text ++ ['\n']) ++ layout.last.elim [] WrittenLine.text

/-- The text of a layout. -/
def text (layout : Layout) : String := String.ofList layout.chars

/-- The records of a layout, in order. -/
def records (layout : Layout) : List Record :=
  layout.allLines.filterMap fun line => line.statement.map (·.record)

/-- The records of a layout, each with the line and the column of its keyword. -/
def placed (layout : Layout) : List (Placed Record) := placedFrom 1 layout.allLines

end Layout

end Record

end Retrace
