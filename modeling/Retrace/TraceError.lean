import Retrace.Record
import Retrace.Text

/-!
# Errors of loading

Every way in which a trace can fail to load, by its cause. `TraceError.message` is the one place
that gives the causes their wording, and `TraceError.position?` says where in the text an error
was found.
-/
namespace Retrace

/-- A field of a record in the text format. -/
inductive Field where
  /-- Number of a declared entity. -/
  | entityId
  /-- Name of a declared entity. -/
  | entityName
  /-- Number of the source of an instantiation. -/
  | source
  /-- Number of the target of an instantiation. -/
  | target
  /-- Line of a point of instantiation. -/
  | line
  /-- Column of a point of instantiation. -/
  | column
  /-- Text of a result. -/
  | result
  deriving DecidableEq, Repr

/-- A field as error messages name it. -/
def Field.text : Field → String
  | entityId => "entity id"
  | entityName => "entity name"
  | source => "source entity id"
  | target => "target entity id"
  | line => "line"
  | column => "column"
  | result => "evaluation result"

/-- What is wrong with the text of records. -/
inductive RecordFault where
  /-- No token starts with the character. -/
  | unexpectedCharacter (char : Char)
  /-- A string does not end on its line. -/
  | unterminatedString
  /-- A backslash stands before a character that it does not escape. -/
  | unknownEscape (char : Char)
  /-- A letter or underscore follows a number without a gap. -/
  | malformedNumber (digits : String)
  /-- A number does not fit a word. -/
  | integerTooLarge (digits : String)
  /-- A line starts with a word that is no keyword. -/
  | unknownRecord (word : String)
  /-- A line starts with something other than a keyword. -/
  | expectedRecord (found : Token)
  /-- A field is to be a number. -/
  | expectedInteger (field : Field) (found : Token)
  /-- A field is to be a string. -/
  | expectedString (field : Field) (found : Token)
  /-- The name of a kind is missing. -/
  | expectedKind (found : Token)
  /-- A point of instantiation is missing. -/
  | expectedFile (found : Token)
  /-- A line goes on after its record. -/
  | afterRecord (found : Token)
  deriving DecidableEq, Repr

/-- Wording of a fault in the text of records. -/
def RecordFault.message : RecordFault → String
  | unexpectedCharacter char => "unexpected character '" ++ char.toString ++ "'"
  | unterminatedString => "unterminated string"
  | unknownEscape char => "unknown escape sequence \\" ++ char.toString
  | malformedNumber digits => "malformed number starting with '" ++ digits ++ "'"
  | integerTooLarge digits => "integer " ++ digits ++ " is too large"
  | unknownRecord word => "unknown record '" ++ word ++ "'"
  | expectedRecord found => "expected a record keyword, found " ++ found.text
  | expectedInteger field found => "expected " ++ field.text ++ ", found " ++ found.text
  | expectedString field found =>
    "expected " ++ field.text ++ " as a quoted string, found " ++ found.text
  | expectedKind found => "expected an instantiation kind, found " ++ found.text
  | expectedFile found => "expected a file name or '-', found " ++ found.text
  | afterRecord found => "unexpected " ++ found.text ++ " after record"

/-- What is wrong with an element of a templight trace. -/
inductive TemplightFault where
  /-- The outermost element has another name. -/
  | notATrace (name : String)
  /-- An event has no kind. -/
  | withoutKind (element : String)
  /-- A begin has no context. -/
  | withoutContext
  /-- A point of instantiation is not of the form file, line and column. -/
  | malformedLocation (text : String)
  /-- An end has another kind than the begin that it closes. -/
  | mismatchedEnd (ended begun : Kind)
  /-- An element is no event. -/
  | unexpectedElement (name : String)
  deriving DecidableEq, Repr

/-- Wording of a fault in a templight trace. -/
def TemplightFault.message : TemplightFault → String
  | notATrace name => "expected <Trace>, found <" ++ name ++ ">"
  | withoutKind element => element ++ " without a kind"
  | withoutContext => "TemplateBegin without a context"
  | malformedLocation text => "malformed point of instantiation '" ++ text ++ "'"
  | mismatchedEnd ended begun =>
    "TemplateEnd of kind " ++ ended.name ++ " closes a " ++ begun.name ++ " begin"
  | unexpectedElement name => "unexpected element <" ++ name ++ ">"

/-- Why the bytes of a trace could not be had. -/
inductive ReadFault where
  /-- The bytes are no UTF-8 text. -/
  | invalidText
  /-- There is no such file. -/
  | missingFile
  deriving DecidableEq, Repr

/-- Wording of a failure to read. -/
def ReadFault.message : ReadFault → String
  | invalidText => "stream did not contain valid UTF-8"
  | missingFile => "No such file or directory (os error 2)"

/-- Why a trace did not load. -/
inductive TraceError where
  /-- The text of a record is malformed. -/
  | malformed (fault : RecordFault) (position : Position)
  /-- A word is to name a kind and names none. -/
  | unknownKind (name : String) (position : Position)
  /-- An instantiation uses an entity that was not declared before. -/
  | undeclared (id : LocalId) (position : Position)
  /-- An entity is declared a second time. -/
  | duplicate (id : LocalId) (position : Position)
  /-- The number of the root is declared. -/
  | reserved (position : Position)
  /-- A record follows the result. -/
  | trailing (position : Position)
  /-- No result was recorded or given. -/
  | missingResult
  /-- An end closes no begin. -/
  | unbalancedEnd (position : Position)
  /-- An element of a templight trace is malformed. -/
  | templight (fault : TemplightFault) (position : Position)
  /-- A templight trace is no well-formed markup. -/
  | markup
  /-- The trace could not be read. -/
  | unreadable (fault : ReadFault)
  deriving DecidableEq, Repr

namespace TraceError

/-- Wording of an error. -/
def message : TraceError → String
  | malformed fault position => "syntax error at " ++ position.text ++ ": " ++ fault.message
  | unknownKind name position => Kind.unknownMessage name ++ " at " ++ position.text
  | undeclared id position =>
    "entity " ++ toString id ++ " is used at " ++ position.text ++ " but was never declared"
  | duplicate id position =>
    "entity " ++ toString id ++ " is declared again at " ++ position.text
  | reserved position =>
    "entity id 0 is reserved for the root (declared at " ++ position.text ++ ")"
  | trailing position => "record at " ++ position.text ++ " follows the evaluation result"
  | missingResult => "trace has no evaluation result"
  | unbalancedEnd position => "unbalanced TemplateEnd at " ++ position.text
  | templight fault position =>
    "malformed templight element at " ++ position.text ++ ": " ++ fault.message
  | markup => "malformed XML"
  | unreadable fault => "failed to read trace: " ++ fault.message

/-- Where an error was found, when it has a place in the text. -/
def position? : TraceError → Option Position
  | malformed _ position | unknownKind _ position | undeclared _ position
  | duplicate _ position | reserved position | trailing position | unbalancedEnd position
  | templight _ position => some position
  | missingResult | markup | unreadable _ => none

end TraceError

end Retrace
