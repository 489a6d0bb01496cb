/-!
# Records

A trace is a sequence of records, whatever its encoding: declarations of entities, instantiations
between declared entities, and the result of the evaluation. Entities carry numbers that are local
to the trace.

A trace names the reason of every instantiation by one of ten words. The words are part of the
trace format, so each kind has exactly one name and a name is read by exact comparison. Beside the
kind stands the place in the traced program whose code asked for the instantiation.
-/
namespace Retrace

/-! ## Kinds -/

/-- Why an entity was instantiated. -/
inductive Kind where
  /-- The body of a template was instantiated. -/
  | templateInstantiation
  /-- A default template argument was instantiated. -/
  | defaultTemplateArgumentInstantiation
  /-- A default function argument was instantiated. -/
  | defaultFunctionArgumentInstantiation
  /-- Explicitly given template arguments were substituted. -/
  | explicitTemplateArgumentSubstitution
  /-- Deduced template arguments were substituted. -/
  | deducedTemplateArgumentSubstitution
  /-- Template arguments given earlier were substituted. -/
  | priorTemplateArgumentSubstitution
  /-- A default template argument was checked. -/
  | defaultTemplateArgumentChecking
  /-- An exception specification was instantiated. -/
  | exceptionSpecInstantiation
  /-- An instantiation made earlier was found again. -/
  | memoization
  /-- A type that is no template was named. -/
  | nonTemplateType
  deriving DecidableEq, Repr

namespace Kind

/-- Every kind, in the order of the trace format. -/
def all : List Kind :=
  [templateInstantiation, defaultTemplateArgumentInstantiation,
    defaultFunctionArgumentInstantiation, explicitTemplateArgumentSubstitution,
    deducedTemplateArgumentSubstitution, priorTemplateArgumentSubstitution,
    defaultTemplateArgumentChecking, exceptionSpecInstantiation, memoization, nonTemplateType]

/-- The word for a kind in traces and on the screen. -/
def name : Kind → String
  | templateInstantiation => "TemplateInstantiation"
  | defaultTemplateArgumentInstantiation => "DefaultTemplateArgumentInstantiation"
  | defaultFunctionArgumentInstantiation => "DefaultFunctionArgumentInstantiation"
  | explicitTemplateArgumentSubstitution => "ExplicitTemplateArgumentSubstitution"
  | deducedTemplateArgumentSubstitution => "DeducedTemplateArgumentSubstitution"
  | priorTemplateArgumentSubstitution => "PriorTemplateArgumentSubstitution"
  | defaultTemplateArgumentChecking => "DefaultTemplateArgumentChecking"
  | exceptionSpecInstantiation => "ExceptionSpecInstantiation"
  | memoization => "Memoization"
  | nonTemplateType => "NonTemplateType"

/-- The kind with the given name; names are compared exactly, case included. -/
def ofName? (word : String) : Option Kind := all.find? (·.name == word)

/-- Place of a kind in `all`. -/
def index (kind : Kind) : Nat := all.idxOf kind

/-- What is said of a word that names no kind. -/
def unknownMessage (word : String) : String := "unknown instantiation kind '" ++ word ++ "'"

/-- Every kind is read back from its name. -/
theorem ofName?_name (kind : Kind) : ofName? kind.name = some kind := by
  cases kind <;> decide

/-- Every kind is listed. -/
theorem mem_all (kind : Kind) : kind ∈ all := by
  cases kind <;> decide

end Kind

/-! ## Points of instantiation -/

/-- File, line and column of the code that triggered an instantiation. -/
structure Location where
  /-- Name of the file, as the trace gives it. -/
  file : String
  /-- Line in the file. -/
  line : Nat
  /-- Column in the line. -/
  column : Nat
  deriving DecidableEq, Repr

/-- A location as it is shown: file, line and column joined by colons. -/
def Location.text (location : Location) : String :=
  location.file ++ ":" ++ toString location.line ++ ":" ++ toString location.column

/-! ## Records -/

/-- Number by which a trace refers to an entity. -/
abbrev LocalId := Nat

/-- The local number of the root, which no trace declares. -/
def rootId : LocalId := 0

/-- One record of a trace. -/
inductive Record where
  /-- Declares an entity. -/
  | entity (id : LocalId) (name : String)
  /-- Processing `source` triggered an instantiation of `target`. -/
  | instantiation (source target : LocalId) (kind : Kind) (location : Option Location)
  /-- Gives the result of the evaluation. -/
  | result (text : String)
  deriving DecidableEq, Repr

/-! ## Tokens

In the text format records are written one to a line, so the end of a line is a token of its own. -/

/-- A token of the text format of records. -/
inductive Token where
  /-- A keyword or the name of a kind. -/
  | word (text : String)
  /-- A number. -/
  | integer (value : Nat)
  /-- A string, without its quotes and with its escapes read. -/
  | quoted (text : String)
  /-- A dash, for an absent point of instantiation. -/
  | dash
  /-- The end of a line. -/
  | newline
  /-- The end of the text. -/
  | endOfText
  deriving DecidableEq, Repr

/-- A token as error messages name it. -/
def Token.text : Token → String
  | word text => "'" ++ text ++ "'"
  | integer value => "integer " ++ toString value
  | quoted text => "string \"" ++ text ++ "\""
  | dash => "'-'"
  | newline => "end of line"
  | endOfText => "end of input"

/-- Whether a token ends a line. -/
def Token.endsLine : Token → Bool
  | newline | endOfText => true
  | _ => false

end Retrace
