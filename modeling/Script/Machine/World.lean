import Script.Machine.Fault
import Script.Machine.Input
import Script.Machine.Sink
import Script.Scopes

/-! # The world a program runs in

Everything that outlasts a statement: the scopes, the current one among them, how many calls are in
progress, and the outside world. -/

namespace Script

/-- The state of a run between statements. Callables made from now on have identities from `fresh`
on; `clock n` is what the clock shows when it is read for the `n`-th time. -/
structure World where
  scopes : Scopes := .initial
  scope : ScopeId := .global
  depth : Nat := 0
  fresh : Nat := Native.library.length
  sink : Sink := {}
  input : Input := {}
  clock : Nat → Float := fun _ => 0
  ticks : Nat := 0

namespace World

/-- The most calls that can be in progress. -/
def maxDepth : Nat := 10000

/-- The value of a name as seen from the current scope. -/
def lookup (w : World) (name : Token) : Except RuntimeError Value :=
  match w.scopes.get w.scope name.source with
  | .ok value => .ok value
  | .error .undefined => .error ⟨name, .undefined name.source⟩
  | .error .uninitialized => .error ⟨name, .uninitialized name.source⟩

/-- Binds a name in the current scope. -/
def define (w : World) (name : Token) (value : Option Value) : Except RuntimeError Unit × World :=
  match w.scopes.define w.scope name.source value with
  | (true, scopes) => (.ok (), { w with scopes })
  | (false, scopes) => (.error ⟨name, .redefined name.source⟩, { w with scopes })

/-- Gives a name as seen from the current scope another value. -/
def assign (w : World) (name : Token) (value : Value) : Except RuntimeError Unit × World :=
  match w.scopes.assign w.scope name.source value with
  | (true, scopes) => (.ok (), { w with scopes })
  | (false, scopes) => (.error ⟨name, .undefined name.source⟩, { w with scopes })

/-- Makes a callable of a declared function. The current scope is kept from now on. -/
def close (w : World) (name : Token) (params : List Token) (body : List Stmt) : Value × World :=
  (.callable w.fresh (.function name params body w.scope),
   { w with scopes := w.scopes.capture w.scope, fresh := w.fresh + 1 })

/-- Enters a new scope inside `parent`. -/
def enter (w : World) (parent : ScopeId) : World :=
  let (scope, scopes) := w.scopes.push parent
  { w with scopes, scope }

/-- Leaves the scope `left` and goes back to the scope `back`. -/
def leave (w : World) (left back : ScopeId) : World :=
  { w with scopes := w.scopes.release left, scope := back }

/-- Binds parameters to arguments in the current scope. -/
def bind : List (Token × Value) → World → Except RuntimeError Unit × World
  | [], w => (.ok (), w)
  | (param, arg) :: rest, w =>
    match w.define param (some arg) with
    | (.ok (), w) => bind rest w
    | (.error e, w) => (.error e, w)

/-- What a native function comes to: a value, a fault, or the end of the program. -/
inductive Effect where
  | value (v : Value)
  | fault (f : Fault)
  | exit

/-- Has the sink carry out some operations. That comes to `effect` unless one of them fails. -/
def operate (w : World) (ops : List Sink.Operation) (effect : Effect) : Effect × World :=
  match w.sink.carryOut ops with
  | (.ok (), sink) => (effect, { w with sink })
  | (.error message, sink) => (.fault (.writeFailed message), { w with sink })

/-- Arguments in a row, as they are printed. -/
def rendered (args : List Value) : String := " ".intercalate (args.map Value.render)

/-- Carries out what a native function does. -/
def perform (w : World) (args : List Value) : Action → Effect × World
  | .clock => (.value (.number (w.clock w.ticks)), { w with ticks := w.ticks + 1 })
  | .print => w.operate (Sink.delivery (rendered args)) (.value .nil)
  | .println => w.operate (Sink.delivery (rendered args ++ "\n")) (.value .nil)
  | .read =>
    match w.input.readLine with
    | (.ended, input) => (.value .nil, { w with input })
    | (.line text, input) => (.value (Input.valueOf text), { w with input })
    | (.failed message, input) => (.fault (.readFailed message), { w with input })
  | .exit => w.operate [.flush] .exit

end World

end Script
