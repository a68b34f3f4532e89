import Script.Folder
import Script.Log
import Script.Options
import Script.Session

/-! # The command line

A script is run once; without one, every line of the input is run in turn and answered. Errors and
the log go to a channel of their own. -/

namespace Script.Command

/-- What the program answers when it is asked for its version. -/
def version : String := "feebl 0.1.0"

/-- What a conversation starts with. -/
def banner (debug : Bool) : String :=
  if debug then "Feebl v0.1. AST print mode on." else "Feebl v0.1."

/-- The value of a line, as it is answered. -/
def answer (value : String) : String := "-> " ++ value

/-- What is said of a script that cannot be read. -/
def unreadable (path : String) (e : FileError) : String :=
  "Could not read '" ++ path ++ "': " ++ e.message

/-- A line without the newline at its end, and without a carriage return before that. -/
def lineText (line : String) : String :=
  match line.toList.reverse with
  | '\n' :: '\r' :: rest => String.ofList rest.reverse
  | '\n' :: rest => String.ofList rest.reverse
  | _ => line

/-- What a run of the program leaves behind: a number for its caller, its output, and its errors
together with the log. -/
structure Result where
  code : Nat
  output : ByteArray
  errors : String

namespace Result

/-- The output of a session, with what went wrong. -/
def ofSession (s : Session) (code : Nat) (errors : String) : Result :=
  ⟨code, s.world.sink.written, errors⟩

end Result

variable {m : Type → Type} [Monad m]

/-- What the log says of a program before it runs. -/
def examination (log : Log) (program : Examined (List Stmt)) : String :=
  String.join (program.found.map fun d => log.record .debug d.report) ++
    if program.found.isEmpty then ""
    else log.record .debug s!"Found {program.found.length} syntax error(s)"

/-- What is said when a program has run: the log, and what went wrong. -/
def conclusion (log : Log) (program : Examined (List Stmt)) : Reply Completion → Nat × String
  | .failed (.runtime e) =>
    let f : Failure := .runtime e
    (f.exitCode, execution ++ f.message ++ "\n")
  | .failed f => (f.exitCode, f.message ++ "\n")
  | .ok .returned =>
    (0, execution ++ log.record .debug "Top-level return, skipping the rest of the batch")
  | .ok .finished | .exited => (0, execution)
where
  execution := log.record .debug s!"Executing {program.tree.length} statement(s)"

/-- Runs a script. -/
def runScript (run : Runner m) (log : Log) (path : String) (source : Except FileError String)
    (s : Session) : m Result := do
  let running := log.record .debug ("Running " ++ path)
  match source with
  | .error e => pure (.ofSession s 1 (running ++ unreadable path e ++ "\n"))
  | .ok source =>
    let program := Examined.ofText parseProgram source
    let (reply, s) ← s.runExamined run program
    let (code, errors) := conclusion log program reply
    pure (.ofSession s code (running ++ examination log program ++ errors))

/-- Prints a line from outside of any program. -/
def say (text : String) (s : Session) : Session :=
  { s with world := { s.world with sink := (s.world.sink.carryOut (Sink.lineOf text)).2 } }

/-- What came of a line of a conversation: the session to go on with unless the program has ended,
and what went wrong. -/
def respond (run : Runner m) (line : String) (s : Session) : m (Bool × Session × String) := do
  if (Text.trim line.toList).isEmpty then pure (true, s, "")
  else
    match ← s.runLine run line with
    | (.ok (some value), s) => pure (true, say (answer value) s, "")
    | (.ok none, s) => pure (true, s, "")
    | (.failed f, s) => pure (true, s, f.message ++ "\n")
    | (.exited, s) => pure (false, s, "")

/-- Answers lines until there are none left, after the errors so far. A line that is no text ends
the conversation. -/
def converse (run : Runner m) : List (List UInt8) → Session → String → m Result
  | [], s, errors => pure (.ofSession s 0 errors)
  | line :: rest, s, errors => do
    match Text.decode? line with
    | none => pure (.ofSession s 1 (errors ++ FileError.undecodable.message ++ "\n"))
    | some text =>
      let (goesOn, s, e) ← respond run (lineText text) s
      if goesOn then converse run rest s (errors ++ e) else pure (.ofSession s 0 (errors ++ e))

/-- The lines of some bytes, each with the newline that ends it. -/
def lines : List UInt8 → List (List UInt8)
  | [] => []
  | b :: rest =>
    if b == 10 then [b] :: lines rest
    else
      match lines rest with
      | [] => [[b]]
      | line :: others => (b :: line) :: others

/-- Runs the program with given arguments, files and input. A command line that gives no options is
answered by its number alone, except that the version is printed. -/
def run (runner : Runner m) (args : List String) (folder : Folder) (input : List UInt8)
    (world : World) : m Result := do
  match Options.read args with
  | .error .version => pure ⟨0, (version ++ "\n").toUTF8, ""⟩
  | .error e => pure ⟨e.exitCode, .empty, ""⟩
  | .ok options =>
    let (_, log) := ({} : Log).openWith options.verbose
    let s : Session := { world := { world with input := .ofBytes input }, debug := options.debug }
    match options.script with
    | some path => runScript runner log path (folder.read path) s
    | none => converse runner (lines input) (say (banner options.debug) s) ""

end Script.Command
