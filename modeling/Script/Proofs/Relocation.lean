import Script.Proofs.ClosuresSound
import Script.Proofs.ValueMaps

/-!
# Programs in another place

The position of a token is there for messages only. When every token of a state is given another
position, each step is the same as before, with the positions changed in what it leads to; so the
runs of two programs that differ in nothing but where their tokens are differ in nothing but where
errors are reported.
-/

namespace Script

section
variable (g : Position → Position)

def Token.relocate (t : Token) : Token := { t with start := g t.start }

mutual

def Expr.relocate : Expr → Expr
  | .assign name value => .assign (name.relocate g) value.relocate
  | .binary left op right => .binary left.relocate (op.relocate g) right.relocate
  | .logical left op right => .logical left.relocate (op.relocate g) right.relocate
  | .unary op operand => .unary (op.relocate g) operand.relocate
  | .call callee paren args => .call callee.relocate (paren.relocate g) (Expr.relocateAll args)
  | .group inner => .group inner.relocate
  | .constant value => .constant value
  | .reference name => .reference (name.relocate g)

def Expr.relocateAll : List Expr → List Expr
  | [] => []
  | e :: es => e.relocate :: Expr.relocateAll es

end

mutual

def Stmt.relocate : Stmt → Stmt
  | .block body => .block (Stmt.relocateAll body)
  | .breakLoop keyword => .breakLoop (keyword.relocate g)
  | .continueLoop keyword => .continueLoop (keyword.relocate g)
  | .expr e => .expr (e.relocate g)
  | .forLoop condition increment body =>
    .forLoop (condition.relocate g) (increment.map (Expr.relocate g)) body.relocate
  | .func name params body =>
    .func (name.relocate g) (params.map (Token.relocate g)) (Stmt.relocateAll body)
  | .ifThen condition body => .ifThen (condition.relocate g) body.relocate
  | .ifElse condition body otherwise =>
    .ifElse (condition.relocate g) body.relocate otherwise.relocate
  | .ret keyword value => .ret (keyword.relocate g) (value.map (Expr.relocate g))
  | .declare name value => .declare (name.relocate g) (value.map (Expr.relocate g))
  | .whileLoop condition body => .whileLoop (condition.relocate g) body.relocate

def Stmt.relocateAll : List Stmt → List Stmt
  | [] => []
  | s :: ss => s.relocate :: Stmt.relocateAll ss

end

def Callable.relocate : Callable → Callable
  | .function name params body closure =>
    .function (name.relocate g) (params.map (Token.relocate g)) (Stmt.relocateAll g body) closure
  | .native n => .native n

def Value.relocate : Value → Value := .onCallables (Callable.relocate g)

def RuntimeError.relocate (e : RuntimeError) : RuntimeError :=
  { e with token := e.token.relocate g }

def Flow.relocate : Flow → Flow
  | .returned v => .returned (v.relocate g)
  | f => f

def Loop.relocate (l : Loop) : Loop :=
  ⟨l.condition.relocate g, l.increment.map (Expr.relocate g), l.body.relocate g⟩

def Frame.relocate : Frame → Frame
  | .assign name => .assign (name.relocate g)
  | .left op e => .left (op.relocate g) (e.relocate g)
  | .right v op => .right (v.relocate g) (op.relocate g)
  | .decide op e => .decide (op.relocate g) (e.relocate g)
  | .sign op => .sign (op.relocate g)
  | .callee paren args => .callee (paren.relocate g) (Expr.relocateAll g args)
  | .argument paren v done args =>
    .argument (paren.relocate g) (v.relocate g) (done.map (Value.relocate g))
      (Expr.relocateAll g args)
  | .discard => .discard
  | .branch body otherwise => .branch (body.relocate g) (otherwise.map (Stmt.relocate g))
  | .giveBack => .giveBack
  | .declare name => .declare (name.relocate g)
  | .test loop => .test (loop.relocate g)
  | .stepped loop => .stepped (loop.relocate g)
  | .round loop => .round (loop.relocate g)
  | .sequence rest => .sequence (Stmt.relocateAll g rest)
  | .leave id back => .leave id back
  | .endCall => .endCall

def Control.relocate : Control → Control
  | .eval e => .eval (e.relocate g)
  | .exec s => .exec (s.relocate g)
  | .value v => .value (v.relocate g)
  | .flow f => .flow (f.relocate g)
  | .raise e => .raise (e.relocate g)
  | .exit => .exit

def Outcome.relocate : Outcome → Outcome
  | .value v => .value (v.relocate g)
  | .flow f => .flow (f.relocate g)
  | .error e => .error (e.relocate g)
  | .exit => .exit

def Bindings.relocate : Bindings → Bindings := .onValues (Value.relocate g)

def Scope.relocate (s : Scope) : Scope := { s with bindings := Bindings.relocate g s.bindings }

def Scopes.relocate (s : Scopes) : Scopes := { s with slots := s.slots.map (Scope.relocate g) }

def World.relocate (w : World) : World := { w with scopes := w.scopes.relocate g }

def State.relocate (s : State) : State :=
  ⟨s.control.relocate g, s.frames.map (Frame.relocate g), s.world.relocate g⟩

end

/-! ## Positions changed twice -/

section
variable (g h : Position → Position)

mutual

theorem Expr.relocate_relocate : ∀ e : Expr, (e.relocate g).relocate h = e.relocate (h ∘ g)
  | .assign _ value => congrArg (Expr.assign _) value.relocate_relocate
  | .binary left _ right | .logical left _ right => by
    simp only [relocate, left.relocate_relocate, right.relocate_relocate]
    rfl
  | .unary _ operand => congrArg (Expr.unary _) operand.relocate_relocate
  | .call callee _ args => by
    simp only [relocate, callee.relocate_relocate, Expr.relocateAll_relocateAll args]
    rfl
  | .group inner => congrArg Expr.group inner.relocate_relocate
  | .constant _ | .reference _ => rfl

theorem Expr.relocateAll_relocateAll : ∀ es : List Expr,
    Expr.relocateAll h (Expr.relocateAll g es) = Expr.relocateAll (h ∘ g) es
  | [] => rfl
  | e :: es => by
    simp only [relocateAll, e.relocate_relocate, Expr.relocateAll_relocateAll es]

end

theorem Expr.map_relocate_relocate (e : Option Expr) :
    (e.map (Expr.relocate g)).map (Expr.relocate h) = e.map (Expr.relocate (h ∘ g)) := by
  cases e with
  | none => rfl
  | some e => exact congrArg some (e.relocate_relocate g h)

theorem Token.map_relocate_relocate (ts : List Token) :
    (ts.map (Token.relocate g)).map (Token.relocate h) = ts.map (Token.relocate (h ∘ g)) := by
  simp [Token.relocate]

mutual

theorem Stmt.relocate_relocate : ∀ s : Stmt, (s.relocate g).relocate h = s.relocate (h ∘ g)
  | .block body => congrArg Stmt.block (Stmt.relocateAll_relocateAll body)
  | .breakLoop _ | .continueLoop _ => rfl
  | .expr e => congrArg Stmt.expr (e.relocate_relocate g h)
  | .forLoop condition increment body => by
    simp only [relocate, Expr.relocate_relocate, Expr.map_relocate_relocate, body.relocate_relocate]
  | .func _ params body => by
    simp only [relocate, Token.map_relocate_relocate, Stmt.relocateAll_relocateAll body]
    rfl
  | .ifThen condition body | .whileLoop condition body => by
    simp only [relocate, Expr.relocate_relocate, body.relocate_relocate]
  | .ifElse condition body otherwise => by
    simp only [relocate, Expr.relocate_relocate, body.relocate_relocate,
      otherwise.relocate_relocate]
  | .ret _ value | .declare _ value => by
    simp only [relocate, Expr.map_relocate_relocate]
    rfl

theorem Stmt.relocateAll_relocateAll : ∀ ss : List Stmt,
    Stmt.relocateAll h (Stmt.relocateAll g ss) = Stmt.relocateAll (h ∘ g) ss
  | [] => rfl
  | s :: ss => by
    simp only [relocateAll, s.relocate_relocate, Stmt.relocateAll_relocateAll ss]

end

theorem Callable.relocate_relocate (c : Callable) :
    (c.relocate g).relocate h = c.relocate (h ∘ g) := by
  cases c with
  | function =>
    simp only [relocate, Token.map_relocate_relocate, Stmt.relocateAll_relocateAll]
    rfl
  | native => rfl

theorem Value.relocate_relocate (v : Value) : (v.relocate g).relocate h = v.relocate (h ∘ g) := by
  cases v with
  | callable identity c => exact congrArg (Value.callable identity) (c.relocate_relocate g h)
  | _ => rfl

theorem Scope.relocate_relocate (s : Scope) : (s.relocate g).relocate h = s.relocate (h ∘ g) := by
  have hv : Value.relocate h ∘ Value.relocate g = Value.relocate (h ∘ g) :=
    funext (Value.relocate_relocate g h)
  simp [relocate, Bindings.relocate, Bindings.onValues, Option.map_map, hv]

theorem World.relocate_relocate (w : World) : (w.relocate g).relocate h = w.relocate (h ∘ g) := by
  have hs : Scope.relocate h ∘ Scope.relocate g = Scope.relocate (h ∘ g) :=
    funext (Scope.relocate_relocate g h)
  simp [relocate, Scopes.relocate, hs]

end

/-! ## Positions left as they are -/

mutual

theorem Expr.relocate_id : ∀ e : Expr, e.relocate id = e
  | .assign _ value => congrArg (Expr.assign _) value.relocate_id
  | .binary left _ right | .logical left _ right => by
    simp only [relocate, left.relocate_id, right.relocate_id]
    rfl
  | .unary _ operand => congrArg (Expr.unary _) operand.relocate_id
  | .call callee _ args => by
    simp only [relocate, callee.relocate_id, Expr.relocateAll_id args]
    rfl
  | .group inner => congrArg Expr.group inner.relocate_id
  | .constant _ | .reference _ => rfl

theorem Expr.relocateAll_id : ∀ es : List Expr, Expr.relocateAll id es = es
  | [] => rfl
  | e :: es => by simp only [relocateAll, e.relocate_id, Expr.relocateAll_id es]

end

theorem Expr.map_relocate_id (e : Option Expr) : e.map (Expr.relocate id) = e := by
  cases e with
  | none => rfl
  | some e => exact congrArg some e.relocate_id

theorem Token.map_relocate_id (ts : List Token) : ts.map (Token.relocate id) = ts :=
  List.map_id ts

mutual

theorem Stmt.relocate_id : ∀ s : Stmt, s.relocate id = s
  | .block body => congrArg Stmt.block (Stmt.relocateAll_id body)
  | .breakLoop _ | .continueLoop _ => rfl
  | .expr e => congrArg Stmt.expr e.relocate_id
  | .forLoop condition increment body => by
    simp only [relocate, Expr.relocate_id, Expr.map_relocate_id, body.relocate_id]
  | .func _ params body => by
    simp only [relocate, Token.map_relocate_id, Stmt.relocateAll_id body]
    rfl
  | .ifThen condition body | .whileLoop condition body => by
    simp only [relocate, Expr.relocate_id, body.relocate_id]
  | .ifElse condition body otherwise => by
    simp only [relocate, Expr.relocate_id, body.relocate_id, otherwise.relocate_id]
  | .ret _ value | .declare _ value => by
    simp only [relocate, Expr.map_relocate_id]
    rfl

theorem Stmt.relocateAll_id : ∀ ss : List Stmt, Stmt.relocateAll id ss = ss
  | [] => rfl
  | s :: ss => by simp only [relocateAll, s.relocate_id, Stmt.relocateAll_id ss]

end

theorem Value.relocate_id (v : Value) : v.relocate id = v := by
  cases v with
  | callable identity c =>
    cases c with
    | function =>
      simp only [relocate, onCallables, Callable.relocate, Token.map_relocate_id,
        Stmt.relocateAll_id]
      rfl
    | native => rfl
  | _ => rfl

theorem Scope.relocate_id (s : Scope) : s.relocate id = s := by
  have hv : Value.relocate id = id := funext Value.relocate_id
  simp [relocate, Bindings.relocate, Bindings.onValues, hv]

theorem World.relocate_id (w : World) : w.relocate id = w := by
  have hs : Scope.relocate id = id := funext Scope.relocate_id
  simp [relocate, Scopes.relocate, hs]

/-! ## Scopes -/

variable {g : Position → Position}

theorem Value.relocate_plain {v : Value} (h : v.closure? = none) : v.relocate g = v := by
  cases v with
  | callable identity c =>
    cases c with
    | function => cases h
    | native => rfl
  | _ => rfl

theorem Callable.text_relocate (c : Callable) : (c.relocate g).text = c.text := by
  cases c <;> rfl

theorem Callable.arity_relocate (c : Callable) : (c.relocate g).arity = c.arity := by
  cases c with
  | function => simp [relocate, arity]
  | native => rfl

namespace Scopes

variable (s : Scopes) (id : ScopeId)

theorem scope_relocate : (s.relocate g).scope id = (s.scope id).relocate g := by
  simp only [scope, relocate, Array.getD_eq_getD_getElem?, Array.getElem?_map]
  cases s.slots[id.slot]? <;> rfl

theorem size_relocate : (s.relocate g).slots.size = s.slots.size := by
  simp [relocate]

theorem captured_relocate : ((s.relocate g).scope id).captured = (s.scope id).captured := by
  rw [scope_relocate]
  rfl

theorem free_relocate : ((s.relocate g).scope id).free = (s.scope id).free := by
  rw [scope_relocate]
  rfl

theorem parent_relocate : ((s.relocate g).scope id).parent = (s.scope id).parent := by
  rw [scope_relocate]
  rfl

theorem lookup_relocate (name : String) : ((s.relocate g).scope id).bindings.lookup name =
    ((s.scope id).bindings.lookup name).map (Option.map (Value.relocate g)) := by
  rw [scope_relocate]
  exact Bindings.lookup_onValues _ name _

theorem modify_relocate (f f' : Scope → Scope) (h : ∀ x, (f x).relocate g = f' (x.relocate g)) :
    (s.relocate g).modify id f' = (s.modify id f).relocate g := by
  simp only [modify, relocate, Scopes.mk.injEq, and_true]
  apply Array.ext_getElem?
  intro i
  simp only [Array.getElem?_modify, Array.getElem?_map]
  split
  · cases s.slots[i]? with
    | none => rfl
    | some x => exact congrArg some (h x).symm
  · rfl

theorem push_relocate (parent : ScopeId) :
    (s.relocate g).push parent = ((s.push parent).1, (s.push parent).2.relocate g) := by
  unfold push
  have hs : (s.relocate g).spare = s.spare := rfl
  rw [hs, size_relocate]
  cases s.spare with
  | nil => simp [relocate, Scope.relocate, Bindings.relocate, Bindings.onValues]
  | cons id spare =>
    have hm := modify_relocate (g := g) s id (fun _ => { parent := some parent })
      (fun _ => { parent := some parent }) fun _ => rfl
    simp only [hm]
    rfl

theorem release_relocate : (s.relocate g).release id = (s.release id).relocate g := by
  have hm := modify_relocate (g := g) s id (fun x => { x with bindings := [], free := true })
    (fun x => { x with bindings := [], free := true }) fun _ => rfl
  have hr : (s.relocate g).recycles = s.recycles := rfl
  rw [release, release, captured_relocate, free_relocate, hr, hm]
  split <;> rfl

theorem captureWithin_relocate (n : Nat) :
    captureWithin n (s.relocate g) id = (captureWithin n s id).relocate g := by
  induction n generalizing s id with
  | zero => rfl
  | succ n ih =>
    have hm := modify_relocate (g := g) s id (fun x => { x with captured := true })
      (fun x => { x with captured := true }) fun _ => rfl
    simp only [captureWithin, captured_relocate, parent_relocate, hm]
    split
    · rfl
    · cases (s.scope id).parent with
      | none => rfl
      | some parent => exact ih _ parent

theorem capture_relocate : (s.relocate g).capture id = (s.capture id).relocate g := by
  unfold capture
  rw [size_relocate, captureWithin_relocate]

theorem ownerWithin_relocate (name : String) (n : Nat) :
    (s.relocate g).ownerWithin name n id = s.ownerWithin name n id := by
  induction n generalizing id with
  | zero => rfl
  | succ n ih =>
    simp only [ownerWithin, lookup_relocate, parent_relocate, Option.isSome_map]
    split
    · rfl
    · cases (s.scope id).parent with
      | none => rfl
      | some parent => exact ih parent

theorem owner_relocate (name : String) : (s.relocate g).owner id name = s.owner id name := by
  unfold owner
  rw [size_relocate, ownerWithin_relocate]

theorem define_relocate (name : String) (value : Option Value) :
    (s.relocate g).define id name (value.map (Value.relocate g)) =
      ((s.define id name value).1, (s.define id name value).2.relocate g) := by
  have hm := modify_relocate (g := g) s id
    (fun x => { x with bindings := (name, value) :: x.bindings })
    (fun x => { x with bindings := (name, value.map (Value.relocate g)) :: x.bindings })
    fun _ => rfl
  simp only [define, lookup_relocate, Option.isSome_map, hm]
  split <;> rfl

theorem get_relocate (name : String) :
    (s.relocate g).get id name = (s.get id name).map (Value.relocate g) := by
  simp only [get, owner_relocate]
  cases s.owner id name with
  | none => rfl
  | some owner =>
    simp only [lookup_relocate]
    rcases (s.scope owner).bindings.lookup name with _ | _ | v <;> rfl

theorem assign_relocate (name : String) (value : Value) :
    (s.relocate g).assign id name (value.relocate g) =
      ((s.assign id name value).1, (s.assign id name value).2.relocate g) := by
  simp only [assign, owner_relocate]
  cases s.owner id name with
  | none => rfl
  | some owner =>
    have hm := modify_relocate (g := g) s owner
      (fun x => { x with bindings := Bindings.set name value x.bindings })
      (fun x => { x with bindings := Bindings.set name (value.relocate g) x.bindings })
      fun x => by simp only [Scope.relocate, Bindings.relocate, Bindings.set_onValues]
    simp only [hm]

end Scopes

/-! ## Operations on the world -/

/-- What an operation on the world came to, and the world after it. -/
def World.relocateResult (g : Position → Position) :
    Except RuntimeError Unit × World → Except RuntimeError Unit × World
  | (r, w) => (r.mapError (RuntimeError.relocate g), w.relocate g)

namespace World

variable (w : World)

theorem lookup_relocate (name : Token) : (w.relocate g).lookup (name.relocate g) =
    ((w.lookup name).mapError (RuntimeError.relocate g)).map (Value.relocate g) := by
  have hg : (w.relocate g).scopes.get (w.relocate g).scope (name.relocate g).source =
      (w.scopes.get w.scope name.source).map (Value.relocate g) :=
    Scopes.get_relocate _ _ _
  simp only [lookup, hg]
  rcases w.scopes.get w.scope name.source with (_ | _) | v <;> rfl

theorem define_relocate (name : Token) (value : Option Value) :
    (w.relocate g).define (name.relocate g) (value.map (Value.relocate g)) =
      relocateResult g (w.define name value) := by
  have hd : (w.relocate g).scopes.define (w.relocate g).scope (name.relocate g).source
      (value.map (Value.relocate g)) = _ :=
    Scopes.define_relocate w.scopes w.scope name.source value
  simp only [define, hd]
  rcases w.scopes.define w.scope name.source value with ⟨_ | _, s⟩ <;> rfl

theorem assign_relocate (name : Token) (value : Value) :
    (w.relocate g).assign (name.relocate g) (value.relocate g) =
      relocateResult g (w.assign name value) := by
  have hd : (w.relocate g).scopes.assign (w.relocate g).scope (name.relocate g).source
      (value.relocate g) = _ := Scopes.assign_relocate w.scopes w.scope name.source value
  simp only [assign, hd]
  rcases w.scopes.assign w.scope name.source value with ⟨_ | _, s⟩ <;> rfl

theorem close_relocate (name : Token) (params : List Token) (body : List Stmt) :
    (w.relocate g).close (name.relocate g) (params.map (Token.relocate g))
        (Stmt.relocateAll g body) =
      ((w.close name params body).1.relocate g, (w.close name params body).2.relocate g) := by
  simp only [close, relocate, Scopes.capture_relocate]
  rfl

theorem enter_relocate (parent : ScopeId) :
    (w.relocate g).enter parent = (w.enter parent).relocate g := by
  simp only [enter, relocate, Scopes.push_relocate]

theorem leave_relocate (left back : ScopeId) :
    (w.relocate g).leave left back = (w.leave left back).relocate g := by
  simp only [leave, relocate, Scopes.release_relocate]

theorem bind_relocate (params : List Token) (args : List Value) :
    bind ((params.map (Token.relocate g)).zip (args.map (Value.relocate g))) (w.relocate g) =
      relocateResult g (bind (params.zip args) w) := by
  induction params generalizing args w with
  | nil => rfl
  | cons param params ih =>
    cases args with
    | nil => rfl
    | cons arg args =>
      have hd := define_relocate (g := g) w param (some arg)
      simp only [List.map_cons, List.zip_cons_cons, bind, Option.map_some] at hd ⊢
      rw [hd]
      rcases w.define param (some arg) with ⟨_ | _, w'⟩
      · rfl
      · exact ih w' args

theorem perform_relocate (args : List Value) (a : Action) :
    (w.relocate g).perform (args.map (Value.relocate g)) a =
      ((w.perform args a).1, (w.perform args a).2.relocate g) := by
  have hr : rendered (args.map (Value.relocate g)) = rendered args :=
    rendered_onCallables Callable.text_relocate args
  have hs : (w.relocate g).sink = w.sink := rfl
  have hi : (w.relocate g).input = w.input := rfl
  cases a with
  | clock => rfl
  | print | println | exit =>
    simp only [perform, operate, hr, hs]
    split <;> rfl
  | read =>
    simp only [perform, hi]
    split <;> rfl

end World

/-! ## Steps -/

namespace State

variable {k : List Frame} {w : World}

theorem ofResult_relocate (r : Except RuntimeError Value) :
    ofResult (k.map (Frame.relocate g)) (w.relocate g)
        ((r.mapError (RuntimeError.relocate g)).map (Value.relocate g)) =
      (ofResult k w r).relocate g := by
  cases r <;> rfl

theorem after_relocate (c : Control) (r : Except RuntimeError Unit × World) :
    after (k.map (Frame.relocate g)) (c.relocate g) (World.relocateResult g r) =
      (after k c r).relocate g := by
  rcases r with ⟨_ | _, w⟩ <;> rfl

theorem eval_relocate (e : Expr) :
    eval (k.map (Frame.relocate g)) (w.relocate g) (e.relocate g) = (eval k w e).relocate g := by
  cases e with
  | constant value => cases value <;> rfl
  | reference name =>
    simp only [Expr.relocate, eval, World.lookup_relocate]
    exact ofResult_relocate _
  | _ => rfl

theorem exec_relocate (s : Stmt) :
    exec (k.map (Frame.relocate g)) (w.relocate g) (s.relocate g) = (exec k w s).relocate g := by
  cases s with
  | block body =>
    have hscope : (w.relocate g).scope = w.scope := rfl
    simp only [Stmt.relocate, exec, hscope, World.enter_relocate]
    rfl
  | func name params body =>
    simp only [Stmt.relocate, exec, World.close_relocate]
    have hd := World.define_relocate (g := g) (w.close name params body).2 name
      (some (w.close name params body).1)
    rw [Option.map_some] at hd
    rw [hd]
    exact after_relocate (.flow .normal) _
  | ret keyword value => cases value <;> rfl
  | declare name value =>
    cases value with
    | none =>
      have hd := World.define_relocate (g := g) w name none
      simp only [Stmt.relocate, exec, Option.map_none] at hd ⊢
      rw [hd]
      exact after_relocate (.flow .normal) _
    | some e => rfl
  | _ => rfl

theorem callFunction_relocate (params : List Token) (body : List Stmt) (closure : ScopeId)
    (args : List Value) :
    callFunction (k.map (Frame.relocate g)) (w.relocate g) (params.map (Token.relocate g))
        (Stmt.relocateAll g body) closure (args.map (Value.relocate g)) =
      (callFunction k w params body closure args).relocate g := by
  simp only [callFunction, World.enter_relocate, World.bind_relocate]
  rcases World.bind (params.zip args) (w.enter closure) with ⟨_ | _, w'⟩
  · simp only [World.relocateResult, Except.mapError]
    rw [show (w'.relocate g).scope = w'.scope from rfl, World.leave_relocate]
    rfl
  · rfl

theorem call_relocate (paren : Token) (callee : Value) (args : List Value) :
    call (k.map (Frame.relocate g)) (w.relocate g) (paren.relocate g) (callee.relocate g)
        (args.map (Value.relocate g)) =
      (call k w paren callee args).relocate g := by
  cases callee with
  | nil | bool | number | text => rfl
  | callable identity c =>
    have hcallee : (Value.callable identity c).relocate g = .callable identity (c.relocate g) := rfl
    have hdepth : (w.relocate g).depth = w.depth := rfl
    simp only [call, hcallee, hdepth, Callable.arity_relocate, List.length_map]
    split
    · rfl
    · split
      · rfl
      · cases c with
        | function name params body closure => exact callFunction_relocate params body closure args
        | native n =>
          obtain ⟨effect, w', he, -, -, hplain⟩ := perform_plain w args n.action
          simp only [Callable.relocate, World.perform_relocate, he]
          cases effect with
          | value v =>
            simp only [relocate, Control.relocate, Value.relocate_plain (hplain v rfl)]
          | fault | exit => rfl

theorem nextArgument_relocate (paren : Token) (callee : Value) (done : List Value)
    (args : List Expr) :
    nextArgument (k.map (Frame.relocate g)) (w.relocate g) (paren.relocate g) (callee.relocate g)
        (done.map (Value.relocate g)) (Expr.relocateAll g args) =
      (nextArgument k w paren callee done args).relocate g := by
  cases args with
  | nil =>
    simp only [Expr.relocateAll, nextArgument, ← List.map_reverse]
    exact call_relocate paren callee _
  | cons => rfl

theorem result_relocate {op : Token} {r : Except Fault Value}
    (h : ∀ v, r = .ok v → v.closure? = none) :
    r.mapError (fun f => ⟨op.relocate g, f⟩) =
      ((r.mapError fun f => (⟨op, f⟩ : RuntimeError)).mapError (RuntimeError.relocate g)).map
        (Value.relocate g) := by
  cases r with
  | error f => rfl
  | ok v => exact congrArg Except.ok (Value.relocate_plain (h v rfl)).symm

theorem resume_relocate (v : Value) (f : Frame) :
    resume (k.map (Frame.relocate g)) (w.relocate g) (v.relocate g) (f.relocate g) =
      (resume k w v f).relocate g := by
  have htrue : (v.relocate g).isTrue = v.isTrue := Value.isTrue_onCallables _ v
  cases f with
  | assign name =>
    simp only [Frame.relocate, resume, World.assign_relocate]
    exact after_relocate (.value v) _
  | right left op =>
    have ha : Operator.apply (op.relocate g).kind (left.relocate g) (v.relocate g) =
        Operator.apply op.kind left v := Operator.apply_onCallables _ op.kind left v
    simp only [Frame.relocate, resume, ha]
    rw [result_relocate fun _ => apply_plain, ofResult_relocate]
  | sign op =>
    have ha : Operator.applySign (op.relocate g).kind (v.relocate g) =
        Operator.applySign op.kind v := Operator.applySign_onCallables _ op.kind v
    simp only [Frame.relocate, resume, ha]
    rw [result_relocate fun _ => applySign_plain, ofResult_relocate]
  | decide op right =>
    have hd : Operator.decides (op.relocate g).kind (v.relocate g) = Operator.decides op.kind v :=
      Operator.decides_onCallables _ op.kind v
    simp only [Frame.relocate, resume, hd]
    split <;> rfl
  | callee paren args => exact nextArgument_relocate paren v [] args
  | argument paren callee done args => exact nextArgument_relocate paren callee (v :: done) args
  | branch body otherwise =>
    simp only [Frame.relocate, resume, htrue]
    split
    · rfl
    · cases otherwise <;> rfl
  | declare name =>
    have hd := World.define_relocate (g := g) w name (some v)
    simp only [Frame.relocate, resume, Option.map_some] at hd ⊢
    rw [hd]
    exact after_relocate (.flow .normal) _
  | test loop =>
    simp only [Frame.relocate, resume, htrue]
    split <;> rfl
  | _ => rfl

theorem proceed_relocate (f : Flow) (frame : Frame) :
    proceed (k.map (Frame.relocate g)) (w.relocate g) (f.relocate g) (frame.relocate g) =
      (proceed k w f frame).relocate g := by
  cases frame with
  | round loop =>
    obtain ⟨condition, increment, body⟩ := loop
    cases f <;> cases increment <;> rfl
  | sequence rest => cases f <;> cases rest <;> rfl
  | leave left back =>
    simp only [Frame.relocate, proceed, World.leave_relocate]
    rfl
  | endCall => cases f <;> rfl
  | _ => rfl

theorem unwind_relocate (e : RuntimeError) (frame : Frame) :
    unwind (k.map (Frame.relocate g)) (w.relocate g) (e.relocate g) (frame.relocate g) =
      (unwind k w e frame).relocate g := by
  cases frame with
  | leave left back =>
    simp only [Frame.relocate, unwind, World.leave_relocate]
    rfl
  | _ => rfl

/-- Nothing that a step does depends on where tokens are. -/
theorem step_relocate (s : State) : (s.relocate g).step = s.step.relocate g := by
  obtain ⟨c, k, w⟩ := s
  cases c with
  | eval e => exact eval_relocate e
  | exec s => exact exec_relocate s
  | value v =>
    cases k with
    | nil => rfl
    | cons f k => exact resume_relocate v f
  | flow f =>
    cases k with
    | nil => rfl
    | cons frame k => exact proceed_relocate f frame
  | raise e =>
    cases k with
    | nil => rfl
    | cons frame k => exact unwind_relocate e frame
  | exit => rfl

theorem outcome?_relocate (s : State) :
    (s.relocate g).outcome? = s.outcome?.map (Outcome.relocate g) := by
  obtain ⟨c, k, w⟩ := s
  cases c <;> cases k <;> rfl

theorem run_relocate (n : Nat) (s : State) :
    run n (s.relocate g) = (run n s).map fun r => (r.1.relocate g, r.2.relocate g) := by
  induction n generalizing s with
  | zero => rfl
  | succ n ih =>
    simp only [run, outcome?_relocate]
    cases s.outcome? with
    | some o => rfl
    | none =>
      rw [Option.map_none, step_relocate]
      exact ih s.step

end State

/-! ## Programs -/

def Ending.relocate {α : Type} (f : α → α) (g : Position → Position) : Ending α → Ending α
  | .done a => .done (f a)
  | .failed e => .failed (e.relocate g)
  | .exited => .exited

namespace World

theorem execute_relocate (n : Nat) (body : List Stmt) (w : World) :
    execute (State.run n) (Stmt.relocateAll g body) (w.relocate g) =
      (execute (State.run n) body w).map fun r => (r.1.relocate id g, r.2.relocate g) := by
  induction body generalizing w with
  | nil => rfl
  | cons s body ih =>
    have hr := State.run_relocate (g := g) n ⟨.exec s, [], w⟩
    simp only [State.relocate, Control.relocate, List.map_nil] at hr
    simp only [Stmt.relocateAll, execute, hr]
    cases State.run n ⟨.exec s, [], w⟩ with
    | none => rfl
    | some r =>
      obtain ⟨o, w'⟩ := r
      cases o with
      | value v => exact ih w'
      | flow f =>
        cases f with
        | returned v => rfl
        | normal | broke | continued => exact ih w'
      | error e => rfl
      | exit => rfl

theorem evaluate_relocate (n : Nat) (e : Expr) (w : World) :
    evaluate (State.run n) (e.relocate g) (w.relocate g) =
      (evaluate (State.run n) e w).map fun r =>
        (r.1.relocate (Value.relocate g) g, r.2.relocate g) := by
  have hr := State.run_relocate (g := g) n ⟨.eval e, [], w⟩
  simp only [State.relocate, Control.relocate, List.map_nil] at hr
  simp only [evaluate, hr]
  rcases State.run n ⟨.eval e, [], w⟩ with _ | ⟨_ | _ | _ | _, w'⟩ <;> rfl

end World

end Script
