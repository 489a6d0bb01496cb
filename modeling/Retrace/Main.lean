import Retrace.Loader
import Retrace.Viewer.Input

/-!
# The command line

Loads a trace and shows it in the viewer. Keys are read from standard input by the line: a line is
the name of a key, or the characters of the keys to press one after the other.
-/
namespace Retrace

/-- What the command line asks for. -/
structure Options where
  /-- File of the trace. -/
  trace : Option String := none
  /-- Name shown for the root. -/
  rootName : String := "<root>"
  /-- The result to show in place of the recorded one. -/
  result : Option String := none
  /-- Whether memoization events are disabled from the start. -/
  hideMemoization : Bool := false

namespace Options

/-- How the program is called. -/
def usage : String :=
  "Usage: retrace [--root-name NAME] [--result TEXT] [--hide-memoization] TRACE"

/-- The options given by arguments, after those in `options`. -/
def read (options : Options) : List String → Except String Options
  | [] => if options.trace.isSome then .ok options else .error usage
  | "--root-name" :: name :: rest => read { options with rootName := name } rest
  | "--result" :: text :: rest => read { options with result := some text } rest
  | "--hide-memoization" :: rest => read { options with hideMemoization := true } rest
  | argument :: rest =>
    if argument.startsWith "-" || options.trace.isSome then .error usage
    else read { options with trace := some argument } rest

end Options

/-- Names of the keys that have no character. -/
def Key.names : List (String × Key) :=
  [("left", .left), ("right", .right), ("up", .up), ("down", .down), ("tab", .tab), ("", .enter),
    ("backspace", .backspace), ("esc", .escape)]

/-- The keys that a line of input presses. -/
def Key.ofInput (text : String) : List Key :=
  match Key.names.lookup text with
  | some key => [key]
  | none => text.toList.map .char

/-- The viewer between two passes, with what the clock showed. -/
structure Show where
  /-- The viewer. -/
  viewer : Viewer
  /-- When the last step was played. -/
  played : Nat := 0
  /-- When the space bar was last heeded. -/
  toggled : Nat := 0

/-- Press a key at a time in milliseconds. -/
def Show.press (shown : Show) (now : Nat) (key : Key) : Show :=
  let held := decide (now < shown.toggled + 200)
  let viewer := shown.viewer.press key held
  { shown with
    viewer, toggled := if viewer.playing = shown.viewer.playing then shown.toggled else now }

/-- One pass at a time in milliseconds. -/
def Show.pass (shown : Show) (now : Nat) (size : Size) : Show × Screen :=
  let due := decide (shown.played + 500 ≤ now)
  let (viewer, panels) := shown.viewer.pass size due
  ({ shown with viewer, played := if due && shown.viewer.playing then now else shown.played },
    panels.screen)

/-- A number in the environment. -/
def sizeFromEnvironment (name : String) (usual : Nat) : IO Nat := do
  return ((← IO.getEnv name).bind (·.toNat?)).getD usual

/-- Read a line of keys while the viewer goes on. -/
def readKeys : IO (Task (Except IO.Error String)) := do
  let input ← IO.getStdin
  IO.asTask input.getLine

/-- Show the viewer until it is to end or the input ends. -/
partial def Show.loop (shown : Show) (size : Size) (last : Screen)
    (line : Task (Except IO.Error String)) : IO Unit := do
  let (shown, screen) := shown.pass (← IO.monoMsNow) size
  if screen ≠ last then
    IO.print screen.ansi
    (← IO.getStdout).flush
  if shown.viewer.quitting then return
  if ← IO.hasFinished line then
    match line.get with
    | .error _ | .ok "" => return
    | .ok text =>
      let now ← IO.monoMsNow
      let keys := Key.ofInput (text.dropEndWhile fun char => char == '\n' || char == '\r').toString
      let shown := keys.foldl (fun shown key => shown.press now key) shown
      loop shown size screen (← readKeys)
  else
    IO.sleep 50
    loop shown size screen line

/-- Load the trace that the options name. -/
def Options.load (options : Options) (path : String) : IO (Except TraceError Session) := do
  let loader : Loader := { rootName := options.rootName, result := options.result }
  try
    return loader.loadBytes (← IO.FS.readBinFile path)
  catch _ =>
    return .error (.unreadable .missingFile)

/-- Load a trace and show it. -/
def Options.start (options : Options) (path : String) : IO UInt32 := do
  IO.eprintln ("Loading " ++ path ++ "...")
  match ← options.load path with
  | .error fault =>
    IO.eprintln ("Error: " ++ fault.message)
    return 1
  | .ok session =>
    let session := if options.hideMemoization then (session.disableKind .memoization).1 else session
    IO.eprintln
      ("Loaded " ++ toString session.graph.numEntities ++ " entities and " ++
        toString session.graph.numEvents ++ " instantiation events.")
    let size : Size := ⟨← sizeFromEnvironment "COLUMNS" 120, ← sizeFromEnvironment "LINES" 40⟩
    Show.loop { viewer := .new session } size [] (← readKeys)
    return 0

end Retrace

/-- Run the viewer with the arguments of the command line. -/
def main (arguments : List String) : IO UInt32 := do
  match Retrace.Options.read {} arguments with
  | .ok options => options.start (options.trace.getD "")
  | .error usage =>
    IO.eprintln usage
    return 2
