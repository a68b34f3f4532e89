import Script.Session

/-!
# Conversations

A session is asked to run one program or line after the other. The answer to a request is the reply
to it, all that has been written up to then, and the input that is left.
-/

namespace Script

/-- What a session is asked to run. -/
inductive Request where
  | program (source : String)
  | line (source : String)

/-- A program, as the line that it is. -/
def Examined.toLine (x : Examined (List Stmt)) : Examined Line := ⟨.statements x.tree, x.found⟩

/-- What is found in the text of a request. -/
def Request.examined : Request → Examined Line
  | .program source => (Examined.ofText parseProgram source).toLine
  | .line source => .ofText parseLine source

structure Answer where
  reply : Reply (Option String)
  sink : Sink
  input : Input

namespace Session

variable {m : Type → Type} [Monad m]

/-- Runs what is asked for. -/
def serve (run : Runner m) (s : Session) : Request → m (Reply (Option String) × Session)
  | .program source => (fun (reply, s) => (reply.map fun _ => none, s)) <$> s.runSource run source
  | .line source => s.runLine run source

/-- Runs what was found in a text, if nothing is wrong with it. -/
def obey (run : Runner m) (s : Session) : Examined Line → m (Reply (Option String) × Session)
  | ⟨tree, found⟩ =>
    if found.isEmpty then
      match tree with
      | .statements body =>
        (fun (reply, s) => (reply.map fun _ => none, s)) <$> s.runStatements run body
      | .expression e =>
        (fun (reply, s) => (reply.map fun v => some v.render, s)) <$> s.runExpression run e
    else pure (.failed (.rejected (Diagnostic.sort found)), s)

theorem serve_eq [LawfulMonad m] (run : Runner m) (s : Session) (r : Request) :
    s.serve run r = s.obey run r.examined := by
  cases r with
  | program source =>
    simp only [serve, runSource, Request.examined]
    obtain ⟨tree, _ | ⟨d, ds⟩⟩ := Examined.ofText parseProgram source
    · rfl
    · exact map_pure _ _
  | line source =>
    show s.runLine run source = s.obey run (.ofText parseLine source)
    unfold runLine
    obtain ⟨tree, _ | ⟨d, ds⟩⟩ := Examined.ofText parseLine source
    · cases tree with
      | statements body => exact bind_pure_comp _ _
      | expression e => exact bind_pure_comp _ _
    · rfl

variable {α : Type}

/-- The answers to requests that are made one after the other. Nobody answers once the program has
ended. -/
def converse (serve : Session → α → m (Reply (Option String) × Session)) :
    Session → List α → m (List Answer)
  | _, [] => pure []
  | s, r :: rs => do
    let (reply, s) ← serve s r
    let answer := ⟨reply, s.world.sink, s.world.input⟩
    match reply with
    | .exited => pure [answer]
    | _ => (answer :: ·) <$> converse serve s rs

end Session

end Script
