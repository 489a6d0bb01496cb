import Retrace.Record.Lexeme

/-!
# Reading records

The text format holds one record to a line:

```text
entity 1 "fib<10>"
instantiation 0 1 TemplateInstantiation "main.cpp" 3 12
instantiation 1 2 Memoization -
result "int_<55>"
```

A line without lexemes holds no record. The reader checks the form of the records only; whether
their numbers make sense is for the builder of a session to say.
-/
namespace Retrace

/-- A line of lexemes and the lexeme that ends it. -/
structure RecordLine where
  /-- The lexemes of the line. -/
  lexemes : List Lexeme
  /-- The end of the line or of the text. -/
  stop : Lexeme
  deriving DecidableEq, Repr

namespace RecordLine

/-- The lines of a list of lexemes. Lexemes after the last end of a line make no line. -/
def ofLexemes : List Lexeme → List RecordLine
  | [] => []
  | lexeme :: rest =>
    if lexeme.value.endsLine then ⟨[], lexeme⟩ :: ofLexemes rest
    else
      match ofLexemes rest with
      | [] => []
      | line :: lines => { line with lexemes := lexeme :: line.lexemes } :: lines

/-- The error at the first of the lexemes, or at the end of the line when there are none. -/
def fail {α : Type} (stop : Lexeme) (found : List Lexeme) (fault : Token → RecordFault) :
    Except TraceError α :=
  let lexeme := found.headD stop
  .error (.malformed (fault lexeme.value) lexeme.position)

/-- A number at the front of the lexemes of a line. -/
def takeInteger (stop : Lexeme) (field : Field) :
    List Lexeme → Except TraceError (Nat × List Lexeme)
  | ⟨.integer value, _⟩ :: rest => .ok (value, rest)
  | found => fail stop found (.expectedInteger field)

/-- A string at the front of the lexemes of a line. -/
def takeString (stop : Lexeme) (field : Field) :
    List Lexeme → Except TraceError (String × List Lexeme)
  | ⟨.quoted text, _⟩ :: rest => .ok (text, rest)
  | found => fail stop found (.expectedString field)

/-- The name of a kind at the front of the lexemes of a line. -/
def takeKind (stop : Lexeme) : List Lexeme → Except TraceError (Kind × List Lexeme)
  | ⟨.word name, position⟩ :: rest =>
    match Kind.ofName? name with
    | some kind => .ok (kind, rest)
    | none => .error (.unknownKind name position)
  | found => fail stop found .expectedKind

/-- A point of instantiation or a dash at the front of the lexemes of a line. -/
def takeLocation (stop : Lexeme) :
    List Lexeme → Except TraceError (Option Location × List Lexeme)
  | ⟨.dash, _⟩ :: rest => .ok (none, rest)
  | ⟨.quoted file, _⟩ :: rest => do
    let (line, rest) ← takeInteger stop .line rest
    let (column, rest) ← takeInteger stop .column rest
    .ok (some ⟨file, line, column⟩, rest)
  | found => fail stop found .expectedFile

/-- The fields of a record after its keyword, which stands at `position`. -/
def takeRecord (stop : Lexeme) (keyword : String) (position : Position) (fields : List Lexeme) :
    Except TraceError (Record × List Lexeme) :=
  if keyword = "entity" then do
    let (id, rest) ← takeInteger stop .entityId fields
    let (name, rest) ← takeString stop .entityName rest
    .ok (.entity id name, rest)
  else if keyword = "instantiation" then do
    let (source, rest) ← takeInteger stop .source fields
    let (target, rest) ← takeInteger stop .target rest
    let (kind, rest) ← takeKind stop rest
    let (location, rest) ← takeLocation stop rest
    .ok (.instantiation source target kind location, rest)
  else if keyword = "result" then do
    let (text, rest) ← takeString stop .result fields
    .ok (.result text, rest)
  else .error (.malformed (.unknownRecord keyword) position)

/-- The record of a line with the position of its keyword; a line without lexemes has none. -/
def record? (line : RecordLine) : Except TraceError (Option (Placed Record)) :=
  match line.lexemes with
  | [] => .ok none
  | ⟨.word keyword, position⟩ :: fields =>
    match takeRecord line.stop keyword position fields with
    | .error fault => .error fault
    | .ok (record, []) => .ok (some ⟨record, position⟩)
    | .ok (_, extra) => fail line.stop extra .afterRecord
  | found => fail line.stop found .expectedRecord

/-- The records of lines, in order. -/
def records : List RecordLine → Except TraceError (List (Placed Record))
  | [] => .ok []
  | line :: lines => do
    let record ← line.record?
    let rest ← records lines
    .ok (record.toList ++ rest)

end RecordLine

/-- The records of a text, each with the position of its keyword. -/
def readRecords (text : String) : Except TraceError (List (Placed Record)) := do
  RecordLine.records (RecordLine.ofLexemes (← lexemes text))

end Retrace
