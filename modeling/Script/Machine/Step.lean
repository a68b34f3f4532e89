import Script.Machine.Operator
import Script.Machine.World

/-! # Running programs step by step

The machine has a control, which says what is being done, and a stack of frames, which say what is
to be done with its outcome. A step looks at the control and, if that is an outcome, at the topmost
frame; no step depends on the frames below. -/

namespace Script

/-- How a statement finished. -/
inductive Flow where
  | normal
  | broke
  | continued
  | returned (value : Value)
deriving Repr

/-- The parts of a loop. -/
structure Loop where
  condition : Expr
  increment : Option Expr
  body : Stmt
deriving Repr

/-- What is to be done with an outcome. -/
inductive Frame where
  /-- Assign the value to a name. -/
  | assign (name : Token)
  /-- The value is a left operand; evaluate the right one. -/
  | left (op : Token) (right : Expr)
  /-- The value is a right operand; apply the operator. -/
  | right (left : Value) (op : Token)
  /-- The value is a left operand that may decide. -/
  | decide (op : Token) (right : Expr)
  /-- Apply a sign to the value. -/
  | sign (op : Token)
  /-- The value is what is called. -/
  | callee (paren : Token) (args : List Expr)
  /-- The value is an argument; those before it are given in reverse. -/
  | argument (paren : Token) (callee : Value) (done : List Value) (args : List Expr)
  /-- Forget the value. -/
  | discard
  /-- The value decides between two statements. -/
  | branch (body : Stmt) (otherwise : Option Stmt)
  /-- Return the value from a function. -/
  | giveBack
  /-- Bind a name to the value. -/
  | declare (name : Token)
  /-- The value decides whether a loop goes on. -/
  | test (loop : Loop)
  /-- The value is that of a loop's increment. -/
  | stepped (loop : Loop)
  /-- The body of a loop has finished. -/
  | round (loop : Loop)
  /-- A statement has finished; others follow. -/
  | sequence (rest : List Stmt)
  /-- The statements of a scope have finished. -/
  | leave (left back : ScopeId)
  /-- The body of a function has finished. -/
  | endCall
deriving Repr

/-- What is being done: something is evaluated or executed, there is an outcome of one of three
kinds, or the program has ended. -/
inductive Control where
  | eval (e : Expr)
  | exec (s : Stmt)
  | value (v : Value)
  | flow (f : Flow)
  | raise (e : RuntimeError)
  | exit

/-- A state of the machine. -/
structure State where
  control : Control
  frames : List Frame
  world : World

/-- How a run can end. -/
inductive Outcome where
  | value (v : Value)
  | flow (f : Flow)
  | error (e : RuntimeError)
  | exit

namespace State

/-- Goes on with a value, or with an error. -/
def ofResult (k : List Frame) (w : World) : Except RuntimeError Value → State
  | .ok v => ⟨.value v, k, w⟩
  | .error e => ⟨.raise e, k, w⟩

/-- Goes on after an operation on the world that either succeeds or is an error. -/
def after (k : List Frame) (c : Control) : Except RuntimeError Unit × World → State
  | (.ok (), w) => ⟨c, k, w⟩
  | (.error e, w) => ⟨.raise e, k, w⟩

/-- Calls a declared function: its body runs in a new scope inside the scope of its declaration. -/
def callFunction (k : List Frame) (w : World) (params : List Token) (body : List Stmt)
    (closure : ScopeId) (args : List Value) : State :=
  let back := w.scope
  let w := w.enter closure
  match w.bind (params.zip args) with
  | (.ok (), w) =>
    ⟨.flow .normal, .sequence body :: .leave w.scope back :: .endCall :: k,
      { w with depth := w.depth + 1 }⟩
  | (.error e, w) => ⟨.raise e, k, w.leave w.scope back⟩

/-- Calls a value. The number of arguments is checked before the depth of calls. -/
def call (k : List Frame) (w : World) (paren : Token) (callee : Value) (args : List Value) :
    State :=
  match callee with
  | .callable _ c =>
    if !c.arity.accepts args.length then
      ⟨.raise ⟨paren, .wrongCount c.arity args.length⟩, k, w⟩
    else if World.maxDepth ≤ w.depth then ⟨.raise ⟨paren, .tooDeep⟩, k, w⟩
    else
      match c with
      | .function _ params body closure => callFunction k w params body closure args
      | .native n =>
        match w.perform args n.action with
        | (.value v, w) => ⟨.value v, k, w⟩
        | (.fault f, w) => ⟨.raise ⟨paren, f⟩, k, w⟩
        | (.exit, w) => ⟨.exit, k, w⟩
  | _ => ⟨.raise ⟨paren, .notCallable⟩, k, w⟩

/-- Evaluates the next argument of a call, or makes the call if there is none. -/
def nextArgument (k : List Frame) (w : World) (paren : Token) (callee : Value)
    (done : List Value) : List Expr → State
  | [] => call k w paren callee done.reverse
  | arg :: args => ⟨.eval arg, .argument paren callee done args :: k, w⟩

/-- Starts to evaluate an expression. -/
def eval (k : List Frame) (w : World) : Expr → State
  | .assign name value => ⟨.eval value, .assign name :: k, w⟩
  | .binary left op right => ⟨.eval left, .left op right :: k, w⟩
  | .logical left op right => ⟨.eval left, .decide op right :: k, w⟩
  | .unary op operand => ⟨.eval operand, .sign op :: k, w⟩
  | .call callee paren args => ⟨.eval callee, .callee paren args :: k, w⟩
  | .group inner => ⟨.eval inner, k, w⟩
  | .constant value => ⟨.value (.ofConstant value), k, w⟩
  | .reference name => ofResult k w (w.lookup name)

/-- Starts to execute a statement. -/
def exec (k : List Frame) (w : World) : Stmt → State
  | .block body =>
    let back := w.scope
    let w := w.enter back
    ⟨.flow .normal, .sequence body :: .leave w.scope back :: k, w⟩
  | .breakLoop _ => ⟨.flow .broke, k, w⟩
  | .continueLoop _ => ⟨.flow .continued, k, w⟩
  | .expr e => ⟨.eval e, .discard :: k, w⟩
  | .forLoop condition increment body =>
    ⟨.eval condition, .test ⟨condition, increment, body⟩ :: k, w⟩
  | .func name params body =>
    let (value, w) := w.close name params body
    after k (.flow .normal) (w.define name (some value))
  | .ifThen condition body => ⟨.eval condition, .branch body none :: k, w⟩
  | .ifElse condition body otherwise => ⟨.eval condition, .branch body (some otherwise) :: k, w⟩
  | .ret _ none => ⟨.flow (.returned .nil), k, w⟩
  | .ret _ (some e) => ⟨.eval e, .giveBack :: k, w⟩
  | .declare name none => after k (.flow .normal) (w.define name none)
  | .declare name (some e) => ⟨.eval e, .declare name :: k, w⟩
  | .whileLoop condition body => ⟨.eval condition, .test ⟨condition, none, body⟩ :: k, w⟩

/-- Hands a value to a frame. Frames that wait for a statement never get one. -/
def resume (k : List Frame) (w : World) (v : Value) : Frame → State
  | .assign name => after k (.value v) (w.assign name v)
  | .left op right => ⟨.eval right, .right v op :: k, w⟩
  | .right left op =>
    ofResult k w ((Operator.apply op.kind left v).mapError fun f => ⟨op, f⟩)
  | .decide op right =>
    if Operator.decides op.kind v then ⟨.value v, k, w⟩ else ⟨.eval right, k, w⟩
  | .sign op => ofResult k w ((Operator.applySign op.kind v).mapError fun f => ⟨op, f⟩)
  | .callee paren args => nextArgument k w paren v [] args
  | .argument paren callee done args => nextArgument k w paren callee (v :: done) args
  | .discard => ⟨.flow .normal, k, w⟩
  | .branch body otherwise =>
    if v.isTrue then ⟨.exec body, k, w⟩
    else
      match otherwise with
      | some s => ⟨.exec s, k, w⟩
      | none => ⟨.flow .normal, k, w⟩
  | .giveBack => ⟨.flow (.returned v), k, w⟩
  | .declare name => after k (.flow .normal) (w.define name (some v))
  | .test loop =>
    if v.isTrue then ⟨.exec loop.body, .round loop :: k, w⟩ else ⟨.flow .normal, k, w⟩
  | .stepped loop => ⟨.eval loop.condition, .test loop :: k, w⟩
  | .round _ | .sequence _ | .leave _ _ | .endCall => ⟨.value v, k, w⟩

/-- Hands the outcome of a statement to a frame. Frames that wait for a value never get one. -/
def proceed (k : List Frame) (w : World) (f : Flow) : Frame → State
  | .round loop =>
    match f with
    | .broke => ⟨.flow .normal, k, w⟩
    | .returned v => ⟨.flow (.returned v), k, w⟩
    | .normal | .continued =>
      match loop.increment with
      | none => ⟨.eval loop.condition, .test loop :: k, w⟩
      | some e => ⟨.eval e, .stepped loop :: k, w⟩
  | .sequence rest =>
    match f, rest with
    | .normal, s :: rest => ⟨.exec s, .sequence rest :: k, w⟩
    | f, _ => ⟨.flow f, k, w⟩
  | .leave left back => ⟨.flow f, k, w.leave left back⟩
  | .endCall =>
    let value :=
      match f with
      | .returned v => v
      | _ => .nil
    ⟨.value value, k, { w with depth := w.depth - 1 }⟩
  | _ => ⟨.flow f, k, w⟩

/-- Hands an error to a frame: scopes and calls are left, all else is dropped. -/
def unwind (k : List Frame) (w : World) (e : RuntimeError) : Frame → State
  | .leave left back => ⟨.raise e, k, w.leave left back⟩
  | .endCall => ⟨.raise e, k, { w with depth := w.depth - 1 }⟩
  | _ => ⟨.raise e, k, w⟩

/-- One step. A state in which a run has ended stays as it is. -/
def step : State → State
  | ⟨.eval e, k, w⟩ => eval k w e
  | ⟨.exec s, k, w⟩ => exec k w s
  | ⟨.value v, frame :: k, w⟩ => resume k w v frame
  | ⟨.flow f, frame :: k, w⟩ => proceed k w f frame
  | ⟨.raise e, frame :: k, w⟩ => unwind k w e frame
  | s => s

/-- How the run has ended, if it has. -/
def outcome? : State → Option Outcome
  | ⟨.exit, _, _⟩ => some .exit
  | ⟨.value v, [], _⟩ => some (.value v)
  | ⟨.flow f, [], _⟩ => some (.flow f)
  | ⟨.raise e, [], _⟩ => some (.error e)
  | _ => none

/-- The native function without arguments that the next step calls, if it calls one. -/
def nextAction? : State → Option Action
  | ⟨.value (.callable _ (.native n)), .callee _ [] :: _, _⟩ => some n.action
  | _ => none

/-- Runs for at most `fuel` steps. Nothing is said of a run that takes longer. -/
def run : Nat → State → Option (Outcome × World)
  | 0, _ => none
  | fuel + 1, s =>
    match s.outcome? with
    | some o => some (o, s.world)
    | none => run fuel s.step

end State

/-- How a program or an expression has ended. -/
inductive Ending (α : Type) where
  | done (a : α)
  | failed (e : RuntimeError)
  | exited

/-- How the statements of a program have ended: all were executed, or one of them returned. -/
inductive Completion where
  | finished
  | returned
deriving DecidableEq, Repr

/-- A way to run the machine to its end. How it does so is left open: it may give up after some
steps, or talk to the outside while it goes. -/
abbrev Runner (m : Type → Type) := State → m (Outcome × World)

namespace World

variable {m : Type → Type} [Monad m]

/-- Executes statements one after the other. The first error ends the program, and so does a return;
leaving or repeating a loop means nothing outside of loops. -/
def execute (run : Runner m) : List Stmt → World → m (Ending Completion × World)
  | [], w => pure (.done .finished, w)
  | s :: rest, w => do
    match ← run ⟨.exec s, [], w⟩ with
    | (.flow (.returned _), w) => pure (.done .returned, w)
    | (.error e, w) => pure (.failed e, w)
    | (.exit, w) => pure (.exited, w)
    | (_, w) => execute run rest w

/-- Evaluates an expression. -/
def evaluate (run : Runner m) (e : Expr) (w : World) : m (Ending Value × World) := do
  match ← run ⟨.eval e, [], w⟩ with
  | (.value v, w) => pure (.done v, w)
  | (.flow _, w) => pure (.done .nil, w)
  | (.error e, w) => pure (.failed e, w)
  | (.exit, w) => pure (.exited, w)

end World

end Script
