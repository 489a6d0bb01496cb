import Retrace.Builder
import Retrace.Record.Reader
import Retrace.Templight

/-!
# Loading traces

A trace is text in one of two encodings, and its first character that is not blank tells which:
templight markup starts with an angle bracket. Both encodings give records, and one builder makes
a session of them. A templight trace records no result, so one that is given none has an empty
result.
-/
namespace Retrace

/-- The encodings of traces. -/
inductive Encoding where
  /-- Records, one to a line. -/
  | records
  /-- Templight markup. -/
  | templight
  deriving DecidableEq, Repr

namespace Encoding

/-- The encoding of a text. -/
def detect (text : String) : Encoding :=
  match Text.trimStart text.toList with
  | '<' :: _ => templight
  | _ => records

/-- The records of a text in an encoding; `reader` is for the markup. -/
def read (encoding : Encoding) (text : String) (reader : Markup.Reader := .nesting) :
    Except TraceError (List (Placed Record)) :=
  match encoding with
  | records => readRecords text
  | templight => Templight.readRecords text reader

/-- The result of a trace that records none. -/
def impliedResult : Encoding → Option String
  | records => none
  | templight => some ""

end Encoding

/-- How traces are loaded. -/
structure Loader where
  /-- Name of the root. -/
  rootName : String
  /-- The result to use in place of a recorded one. -/
  result : Option String := none
  deriving DecidableEq, Repr

namespace Loader

/-- The session of a trace; `reader` is for the markup. -/
def load (loader : Loader) (text : String) (reader : Markup.Reader := .nesting) :
    Except TraceError Session := do
  let encoding := Encoding.detect text
  let records ← encoding.read text reader
  let builder ← (Builder.new loader.rootName).addAll records
  builder.finish (loader.result.or encoding.impliedResult)

/-- The session of a trace in bytes; `reader` is for the markup. -/
def loadBytes (loader : Loader) (bytes : ByteArray) (reader : Markup.Reader := .nesting) :
    Except TraceError Session :=
  match String.fromUTF8? bytes with
  | some text => loader.load text reader
  | none => .error (.unreadable .invalidText)

end Loader

end Retrace
