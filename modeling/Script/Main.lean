import Std.Time
import Script.Command

/-! # The program

Connects the machine to the console: output is passed on as it is written, a line of input is
fetched when a program asks for one, and the clock shows the time. -/

namespace Script.Console

/-- What is shown when the command line is not understood, or on request. -/
def usage : String :=
  "Usage: feebl [OPTIONS] [INPUT]\n\n" ++
  "Arguments:\n  [INPUT]  Script to run; starts an interactive session if omitted\n\n" ++
  "Options:\n" ++
  "  -d, --debug    Print the syntax tree of every statement before running it\n" ++
  "  -v, --verbose  Print verbose log output\n" ++
  "  -h, --help     Print help\n" ++
  "  -V, --version  Print version"

/-- Passes on what has been written. -/
def pass (w : World) : IO World := do
  if w.sink.written.isEmpty then pure w
  else
    let out ← IO.getStdout
    out.write w.sink.written
    out.flush
    pure { w with sink := {} }

/-- A line of input, after the bytes of it that were read before, with the newline that ends it. -/
partial def fetchAfter (line : ByteArray) : IO (List UInt8) := do
  let bytes ← (← IO.getStdin).read 1
  if bytes.isEmpty then pure line.toList
  else if bytes.toList == [10] then pure (line ++ bytes).toList
  else fetchAfter (line ++ bytes)

/-- The bytes of the next line, its end included. -/
def fetch : IO (List UInt8) :=
  fetchAfter .empty

/-- Sees to it that what the next step asks of the outside is there. -/
def prepare (s : State) : IO World := do
  match s.nextAction? with
  | some .read => pure { s.world with input := .ofBytes (← fetch) }
  | some .clock =>
    let now ← Std.Time.Timestamp.now
    let millis := Float.ofInt now.toMillisecondsSinceUnixEpoch.toInt
    pure { s.world with clock := fun _ => millis }
  | _ => pure s.world

/-- Runs the machine to its end. -/
partial def runLive (s : State) : IO (Outcome × World) := do
  let w ← pass s.world
  match s.outcome? with
  | some o => pure (o, w)
  | none =>
    let w ← prepare { s with world := w }
    runLive { s with world := w }.step

/-- What went wrong with reading a file. -/
def fileError : IO.Error → FileError
  | .noFileOrDirectory _ _ _ => .missing
  | .inappropriateType _ code _ => if code == 21 then .folder else .notFolder
  | _ => .missing

def readScript (path : String) : IO (Except FileError String) := do
  try
    let bytes ← IO.FS.readBinFile path
    match String.fromUTF8? bytes with
    | some text => pure (.ok text)
    | none => pure (.error .undecodable)
  catch e => pure (.error (fileError e))

/-- Shows what a run has left behind, and yields its number. -/
def finish (r : Command.Result) : IO UInt32 := do
  let out ← IO.getStdout
  out.write r.output
  out.flush
  IO.eprint r.errors
  pure (UInt32.ofNat r.code)

/-- Answers lines until there are none left. -/
partial def converse (s : Session) : IO UInt32 := do
  let s := { s with world := ← pass s.world }
  match Text.decode? (← fetch) with
  | none => finish (.ofSession s 1 (FileError.undecodable.message ++ "\n"))
  | some "" => pure 0
  | some line =>
    let (goesOn, s, errors) ← Command.respond runLive (Command.lineText line) s
    IO.eprint errors
    if goesOn then converse s else finish (.ofSession s 0 "")

end Script.Console

open Script in
def main (args : List String) : IO UInt32 := do
  match Options.read args with
  | .error .version => IO.println Command.version; pure 0
  | .error .help => IO.println Console.usage; pure 0
  | .error e => IO.eprintln Console.usage; pure (UInt32.ofNat e.exitCode)
  | .ok options =>
    let (_, log) := ({} : Log).openWith options.verbose
    let s : Session := { debug := options.debug }
    match options.script with
    | some path =>
      Console.finish (← Command.runScript Console.runLive log path (← Console.readScript path) s)
    | none => Console.converse (Command.say (Command.banner options.debug) s)
