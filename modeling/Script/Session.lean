import Script.Diagnostic
import Script.Machine.Step
import Script.Syntax.Outline

/-! # Sessions

A session runs one program or line after the other in one world, so that what one of them defines is
there for the next. When it debugs, it prints the outline of each statement before anything runs. -/

namespace Script

/-- Why a program or line did not succeed. -/
inductive Failure where
  | rejected (ds : List Diagnostic)
  | runtime (e : RuntimeError)
  | output (message : String)

namespace Failure

/-- The failure in words, one line for each thing that is wrong. -/
def message : Failure → String
  | rejected ds => "\n".intercalate (ds.map Diagnostic.report)
  | runtime e => e.report
  | output message => message

/-- What the program that runs scripts tells its caller. -/
def exitCode : Failure → Nat
  | runtime _ => 2
  | _ => 1

end Failure

/-- What came of a program or line. -/
inductive Reply (α : Type) where
  | ok (a : α)
  | failed (f : Failure)
  | exited

def Reply.map {α β : Type} (f : α → β) : Reply α → Reply β
  | ok a => .ok (f a)
  | failed e => .failed e
  | exited => .exited

def Ending.toReply {α : Type} : Ending α → Reply α
  | done a => .ok a
  | failed e => .failed (.runtime e)
  | exited => .exited

/-- A world, and whether outlines are printed. -/
structure Session where
  world : World := {}
  debug : Bool := false

namespace Session

/-- The step by which outlines are indented. -/
def indentation : String := "  "

/-- Prints texts, each on lines of its own, until one cannot be printed. -/
def display (texts : List String) (w : World) : Except String Unit × World :=
  let (result, sink) := w.sink.carryOut (texts.flatMap Sink.lineOf)
  (result, { w with sink })

variable {m : Type → Type} [Monad m]

/-- Prints outlines if the session debugs, and then goes on in the world. -/
def announce {α : Type} (s : Session) (outlines : List String)
    (go : World → m (Ending α × World)) : m (Reply α × Session) := do
  match display (if s.debug then outlines else []) s.world with
  | (.error message, world) => pure (.failed (.output message), { s with world })
  | (.ok (), world) =>
    let (ending, world) ← go world
    pure (ending.toReply, { s with world })

/-- Runs statements. -/
def runStatements (run : Runner m) (body : List Stmt) (s : Session) :
    m (Reply Completion × Session) :=
  s.announce (body.map (·.outline indentation 0)) (World.execute run body)

/-- Evaluates an expression. -/
def runExpression (run : Runner m) (e : Expr) (s : Session) : m (Reply Value × Session) :=
  s.announce [e.outline] (World.evaluate run e)

/-- Runs a program that has been examined. Nothing runs if anything is wrong with it. -/
def runExamined (run : Runner m) (program : Examined (List Stmt)) (s : Session) :
    m (Reply Completion × Session) :=
  if program.found.isEmpty then s.runStatements run program.tree
  else pure (.failed (.rejected (Diagnostic.sort program.found)), s)

/-- Runs a program. -/
def runSource (run : Runner m) (source : String) (s : Session) :
    m (Reply Completion × Session) :=
  s.runExamined run (.ofText parseProgram source)

/-- Runs a line. The reply to one that is an expression is its value as it is printed; to one that
is a program it is nothing. -/
def runLine (run : Runner m) (line : String) (s : Session) :
    m (Reply (Option String) × Session) := do
  let ⟨tree, found⟩ := Examined.ofText parseLine line
  if found.isEmpty then
    match tree with
    | .statements body =>
      let (reply, s) ← s.runStatements run body
      pure (reply.map fun _ => none, s)
    | .expression e =>
      let (reply, s) ← s.runExpression run e
      pure (reply.map fun v => some v.render, s)
  else pure (.failed (.rejected (Diagnostic.sort found)), s)

end Session

end Script
