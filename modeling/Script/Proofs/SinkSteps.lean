import Script.Proofs.CallsBalanced
import Script.Proofs.Conversations

/-!
# What a step does with its sink

A step either asks its sink for something, and then what comes of it is what comes of that, or it leaves
the sink alone and does the same over every other sink. So all that a run learns of its sink is what
that answers, and all that it does to it is to operate it.
-/

namespace Script

/-! ## Errands -/

/-- What a native function asks of the sink, if it does, and what that comes to when it is done. -/
def Action.errand? (args : List Value) : Action → Option (List Sink.Operation × World.Effect)
  | .print => some (Sink.delivery (World.rendered args), .value .nil)
  | .println => some (Sink.delivery (World.rendered args ++ "\n"), .value .nil)
  | .exit => some ([.flush], .exit)
  | .clock | .read => none

/-- The same world with another sink. -/
def World.into (sink : Sink) (w : World) : World := { w with sink }

/-- What a call asks of the sink, if it does and gets as far as that. -/
def World.errand? (w : World) (args : List Value) :
    Value → Option (List Sink.Operation × World.Effect)
  | .callable _ (.native n) =>
    if n.arity.accepts args.length && decide (w.depth < maxDepth) then n.action.errand? args
    else none
  | _ => none

namespace State

def into (sink : Sink) (s : State) : State := { s with world := s.world.into sink }

/-- What the next step asks of the sink, if it does: the closing parenthesis of the call, the
operations, and what they come to. -/
def errand? (s : State) : Option (Token × List Sink.Operation × World.Effect) :=
  s.nextCall?.bind fun (paren, callee, args) => (s.world.errand? args callee).map (paren, ·)

/-- Goes on with the effect of a native function. -/
def settle (k : List Frame) (w : World) (paren : Token) : World.Effect → State
  | .value v => ⟨.value v, k, w⟩
  | .fault f => ⟨.raise ⟨paren, f⟩, k, w⟩
  | .exit => ⟨.exit, k, w⟩

/-- Goes on when the sink has answered: with the effect, unless something could not be done. -/
def answered (k : List Frame) (w : World) (paren : Token) (effect : World.Effect) :
    Except String Unit × Sink → State
  | (.ok (), sink) => settle k (w.into sink) paren effect
  | (.error message, sink) => settle k (w.into sink) paren (.fault (.writeFailed message))

end State

/-! ## Steps that leave the sink alone -/

namespace World

variable {w : World} {sink : Sink}

@[simp] theorem into_sink : (w.into sink).sink = sink := rfl

@[simp] theorem into_scopes : (w.into sink).scopes = w.scopes := rfl

@[simp] theorem into_scope : (w.into sink).scope = w.scope := rfl

@[simp] theorem into_depth : (w.into sink).depth = w.depth := rfl

@[simp] theorem into_input : (w.into sink).input = w.input := rfl

theorem define_into (name : Token) (value : Option Value) :
    (w.into sink).define name value =
      ((w.define name value).1, (w.define name value).2.into sink) := by
  simp only [define, into_scopes, into_scope]
  rcases w.scopes.define w.scope name.source value with ⟨_ | _, scopes⟩ <;> rfl

theorem assign_into (name : Token) (value : Value) :
    (w.into sink).assign name value =
      ((w.assign name value).1, (w.assign name value).2.into sink) := by
  simp only [assign, into_scopes, into_scope]
  rcases w.scopes.assign w.scope name.source value with ⟨_ | _, scopes⟩ <;> rfl

theorem bind_into (ps : List (Token × Value)) :
    (w.into sink).bind ps = ((w.bind ps).1, (w.bind ps).2.into sink) := by
  induction ps generalizing w with
  | nil => rfl
  | cons p ps ih =>
    unfold bind
    rw [define_into]
    rcases w.define p.1 (some p.2) with ⟨_ | _, w'⟩
    · rfl
    · exact ih

end World

namespace State

variable {k : List Frame} {w : World} {sink : Sink}

theorem ofResult_into (r : Except RuntimeError Value) :
    ofResult k (w.into sink) r = (ofResult k w r).into sink := by
  cases r <;> rfl

theorem after_into (c : Control) (r : Except RuntimeError Unit × World) :
    after k c (r.1, r.2.into sink) = (after k c r).into sink := by
  obtain ⟨_ | _, w⟩ := r <;> rfl

theorem eval_into (e : Expr) : eval k (w.into sink) e = (eval k w e).into sink := by
  cases e with
  | reference name => exact ofResult_into (w.lookup name)
  | _ => rfl

theorem exec_into (s : Stmt) : exec k (w.into sink) s = (exec k w s).into sink := by
  cases s with
  | func name params body =>
    have hclose : (w.into sink).close name params body =
        ((w.close name params body).1, (w.close name params body).2.into sink) := rfl
    simp only [exec, hclose, World.define_into]
    exact after_into _ _
  | declare name value =>
    cases value with
    | none =>
      simp only [exec, World.define_into]
      exact after_into _ _
    | some e => rfl
  | ret keyword value => cases value <;> rfl
  | _ => rfl

theorem callFunction_into (params : List Token) (body : List Stmt) (closure : ScopeId)
    (args : List Value) : callFunction k (w.into sink) params body closure args =
      (callFunction k w params body closure args).into sink := by
  have henter : (w.into sink).enter closure = (w.enter closure).into sink := rfl
  simp only [callFunction, henter, World.bind_into]
  rcases (w.enter closure).bind (params.zip args) with ⟨_ | _, w'⟩ <;> rfl

theorem perform_into {args : List Value} {a : Action} (ha : a.errand? args = none) :
    (w.into sink).perform args a = ((w.perform args a).1, (w.perform args a).2.into sink) := by
  cases a with
  | clock => rfl
  | print | println | exit => cases ha
  | read =>
    simp only [World.perform, World.into_input]
    rcases w.input.readLine with ⟨_ | _ | _, input⟩ <;> rfl

theorem call_into {callee : Value} {args : List Value} (h : w.errand? args callee = none)
    (paren : Token) :
    call k (w.into sink) paren callee args = (call k w paren callee args).into sink := by
  cases callee with
  | nil | bool | number | text => rfl
  | callable identity c =>
    simp only [call]
    by_cases harity : c.arity.accepts args.length = true
    · by_cases hdepth : World.maxDepth ≤ w.depth
      · simp only [harity, World.into_depth, hdepth]
        rfl
      · simp only [harity, World.into_depth, hdepth, Bool.not_true, Bool.false_eq_true, if_false]
        cases c with
        | function name params body closure => exact callFunction_into params body closure args
        | native n =>
          have ha : n.action.errand? args = none := by
            have hn : n.arity.accepts args.length = true := harity
            simpa [World.errand?, hn, Nat.not_le.mp hdepth] using h
          simp only [perform_into ha]
          rcases w.perform args n.action with ⟨_ | _ | _, w'⟩ <;> rfl
    · simp only [harity]
      rfl

theorem resume_into {v : Value} {f : Frame}
    (h : (⟨.value v, f :: k, w⟩ : State).nextCall? = none) :
    resume k (w.into sink) v f = (resume k w v f).into sink := by
  cases f with
  | assign name =>
    simp only [resume, World.assign_into]
    exact after_into _ _
  | declare name =>
    simp only [resume, World.define_into]
    exact after_into _ _
  | right left op => exact ofResult_into _
  | sign op => exact ofResult_into _
  | decide op right =>
    simp only [resume]
    split <;> rfl
  | test loop =>
    simp only [resume]
    split <;> rfl
  | branch body otherwise =>
    simp only [resume]
    split
    · rfl
    · cases otherwise <;> rfl
  | callee paren args =>
    cases args with
    | nil => cases h
    | cons arg args => rfl
  | argument paren callee done args =>
    cases args with
    | nil => cases h
    | cons arg args => rfl
  | _ => rfl

theorem proceed_into (f : Flow) (frame : Frame) :
    proceed k (w.into sink) f frame = (proceed k w f frame).into sink := by
  cases frame with
  | round loop =>
    cases f with
    | broke | returned => rfl
    | normal | continued =>
      simp only [proceed]
      split <;> rfl
  | sequence rest =>
    cases f with
    | normal => cases rest <;> rfl
    | broke | continued | returned => rfl
  | _ => rfl

theorem unwind_into (e : RuntimeError) (frame : Frame) :
    unwind k (w.into sink) e frame = (unwind k w e frame).into sink := by
  cases frame <;> rfl

variable {s : State}

theorem nextCall_into : (s.into sink).nextCall? = s.nextCall? := by
  obtain ⟨c, k, w⟩ := s
  cases c with
  | value v =>
    cases k with
    | nil => rfl
    | cons f k =>
      cases f with
      | callee paren args => cases args <;> rfl
      | argument paren callee done args => cases args <;> rfl
      | _ => rfl
  | _ => rfl

theorem errand_into : (s.into sink).errand? = s.errand? := by
  have herrand : ∀ args callee,
      (s.into sink).world.errand? args callee = s.world.errand? args callee := by
    intro args callee
    cases callee with
    | callable identity c => cases c <;> rfl
    | nil | bool | number | text => rfl
  unfold errand?
  rw [nextCall_into]
  simp only [herrand]

theorem step_into (h : s.errand? = none) : (s.into sink).step = s.step.into sink := by
  cases hcall : s.nextCall? with
  | some c =>
    obtain ⟨paren, callee, args⟩ := c
    have hquiet : s.world.errand? args callee = none := by
      simpa [errand?, hcall] using h
    rw [step_nextCall hcall, step_nextCall (nextCall_into.trans hcall)]
    exact call_into hquiet paren
  | none =>
    obtain ⟨c, k, w⟩ := s
    cases c with
    | eval e => exact eval_into e
    | exec s => exact exec_into s
    | value v =>
      cases k with
      | nil => rfl
      | cons f k => exact resume_into hcall
    | flow f =>
      cases k with
      | nil => rfl
      | cons frame k => exact proceed_into f frame
    | raise e =>
      cases k with
      | nil => rfl
      | cons frame k => exact unwind_into e frame
    | exit => rfl

theorem step_sink (h : s.errand? = none) : s.step.world.sink = s.world.sink := by
  have hstep : s.step = s.step.into s.world.sink := step_into h
  exact congrArg (fun s => s.world.sink) hstep

/-! ## Steps that ask something of the sink -/

theorem call_errand {callee : Value} {args : List Value} {ops : List Sink.Operation}
    {effect : World.Effect} (h : w.errand? args callee = some (ops, effect)) (paren : Token) :
    call k w paren callee args = answered k w paren effect (w.sink.carryOut ops) := by
  unfold World.errand? at h
  split at h
  · rename_i identity n
    split at h
    · rename_i hcall
      obtain ⟨harity, hdepth⟩ := Bool.and_eq_true_iff.mp hcall
      have hperform : w.perform args n.action = w.operate ops effect := by
        cases ha : n.action <;> rw [ha] at h <;> cases h <;> rfl
      have hdepth' : ¬ World.maxDepth ≤ w.depth := Nat.not_le.mpr (of_decide_eq_true hdepth)
      simp only [call, Callable.arity, harity, hdepth', hperform, World.operate, Bool.not_true,
        Bool.false_eq_true, if_false]
      rcases w.sink.carryOut ops with ⟨_ | _, sink⟩
      · rfl
      · cases effect <;> rfl
    · cases h
  · cases h

theorem step_errand {paren : Token} {ops : List Sink.Operation} {effect : World.Effect}
    (h : s.errand? = some (paren, ops, effect)) :
    s.step = answered s.frames.tail s.world paren effect (s.world.sink.carryOut ops) := by
  obtain ⟨⟨paren, callee, args⟩, hcall, herrand⟩ := Option.bind_eq_some_iff.mp h
  obtain ⟨⟨ops, effect⟩, hops, he⟩ := Option.map_eq_some_iff.mp herrand
  cases he
  rw [step_nextCall hcall]
  exact call_errand hops paren

theorem answered_sink (paren : Token) (effect : World.Effect) (r : Except String Unit × Sink) :
    (answered k w paren effect r).world.sink = r.2 := by
  obtain ⟨_ | _, sink⟩ := r
  · rfl
  · cases effect <;> rfl

theorem answered_into (paren : Token) (effect : World.Effect) (r : Except String Unit × Sink) :
    answered k (w.into sink) paren effect r = answered k w paren effect r := by
  obtain ⟨_ | _, sink⟩ := r <;> rfl

end State

/-! ## What comes of a sink -/

namespace Sink

/-- What comes of a sink when it is operated, again and again. -/
inductive Grows (s : Sink) : Sink → Prop
  | refl : Grows s s
  | operate {s' : Sink} (h : Grows s s') (op : Operation) : Grows s (s'.operate op).2

variable {s s' s'' : Sink}

theorem Grows.trans (h : s.Grows s') (h' : s'.Grows s'') : s.Grows s'' := by
  induction h' with
  | refl => exact h
  | operate _ op ih => exact ih.operate op

theorem Grows.device (h : s.Grows s') : s'.device = s.device := by
  induction h with
  | refl => rfl
  | @operate s' _ op ih =>
    rw [← ih, Sink.operate]
    split <;> rfl

theorem Grows.written (h : s.Grows s') : ∃ piece, s'.written = s.written ++ piece := by
  induction h with
  | refl => exact ⟨.empty, by simp⟩
  | operate _ op ih =>
    obtain ⟨piece, hpiece⟩ := ih
    unfold Sink.operate
    split
    · exact ⟨piece ++ op.bytes, by simp only [hpiece, ByteArray.append_assoc]⟩
    · rename_i taken _ _
      exact ⟨piece ++ op.bytes.extract 0 taken, by simp only [hpiece, ByteArray.append_assoc]⟩

theorem carryOut_grows (ops : List Operation) (s : Sink) : s.Grows (s.carryOut ops).2 := by
  induction ops generalizing s with
  | nil => exact .refl
  | cons op ops ih =>
    have hop := Grows.refl.operate (s := s) op
    unfold carryOut
    split
    · rename_i s' h
      rw [h] at hop
      exact hop.trans (ih s')
    · rename_i message s' h
      rw [h] at hop
      exact hop

end Sink

namespace State

theorem step_grows (s : State) : s.world.sink.Grows s.step.world.sink := by
  cases h : s.errand? with
  | none =>
    rw [step_sink h]
    exact .refl
  | some p =>
    rw [step_errand h, answered_sink]
    exact Sink.carryOut_grows _ _

theorem run_grows {n : Nat} {s : State} {o : Outcome} {w : World} (h : run n s = some (o, w)) :
    s.world.sink.Grows w.sink := by
  induction n generalizing s with
  | zero => cases h
  | succ n ih =>
    unfold run at h
    split at h
    · cases h
      exact .refl
    · exact (step_grows s).trans (ih h)

end State

/-! ## Programs -/

def Outcome.ending : Outcome → Ending Value
  | value v => .done v
  | flow _ => .done .nil
  | error e => .failed e
  | exit => .exited

namespace World

section
variable {m : Type → Type} [Monad m]

/-- Goes on with the statements that follow one that has ended, unless that ends the program. -/
def goOn (run : Runner m) (rest : List Stmt) : Outcome × World → m (Ending Completion × World)
  | (.flow (.returned _), w) => pure (.done .returned, w)
  | (.error e, w) => pure (.failed e, w)
  | (.exit, w) => pure (.exited, w)
  | (_, w) => execute run rest w

theorem execute_cons (run : Runner m) (s : Stmt) (rest : List Stmt) (w : World) :
    w.execute run (s :: rest) = run ⟨.exec s, [], w⟩ >>= goOn run rest := by
  rw [execute]
  congr 1

theorem evaluate_eq [LawfulMonad m] (run : Runner m) (e : Expr) (w : World) :
    w.evaluate run e = (fun r => (r.1.ending, r.2)) <$> run ⟨.eval e, [], w⟩ := by
  rw [evaluate, ← bind_pure_comp]
  congr 1
  funext r
  obtain ⟨o, w⟩ := r
  cases o <;> rfl

end

theorem goOn_cases (o : Outcome) (rest : List Stmt) :
    (∃ ending, ∀ {m : Type → Type} [Monad m] (run : Runner m) (w : World),
      goOn run rest (o, w) = pure (ending, w)) ∨
    ∀ {m : Type → Type} [Monad m] (run : Runner m) (w : World),
      goOn run rest (o, w) = w.execute run rest := by
  cases o with
  | value v => exact .inr fun run w => rfl
  | flow f =>
    cases f with
    | returned v => exact .inl ⟨.done .returned, fun run w => rfl⟩
    | normal | broke | continued => exact .inr fun run w => rfl
  | error e => exact .inl ⟨.failed e, fun run w => rfl⟩
  | exit => exact .inl ⟨.exited, fun run w => rfl⟩

variable {w w' : World} {n : Nat}

theorem execute_grows {body : List Stmt} {ending : Ending Completion}
    (h : w.execute (State.run n) body = some (ending, w')) : w.sink.Grows w'.sink := by
  induction body generalizing w with
  | nil =>
    cases h
    exact .refl
  | cons s rest ih =>
    rw [execute_cons] at h
    obtain ⟨⟨o, w₁⟩, hr, h⟩ := Option.bind_eq_some_iff.mp h
    have hw₁ : w.sink.Grows w₁.sink := State.run_grows hr
    rcases goOn_cases o rest with ⟨ended, hend⟩ | hgo
    · rw [hend] at h
      cases h
      exact hw₁
    · rw [hgo] at h
      exact hw₁.trans (ih h)

theorem evaluate_grows {e : Expr} {ending : Ending Value}
    (h : w.evaluate (State.run n) e = some (ending, w')) : w.sink.Grows w'.sink := by
  rw [evaluate_eq] at h
  obtain ⟨⟨o, w₁⟩, hr, he⟩ := Option.map_eq_some_iff.mp h
  cases he
  exact State.run_grows hr

end World

namespace Line

/-- What is printed of a line when a session debugs. -/
def outlines : Line → List String
  | .statements body => body.map (·.outline Session.indentation 0)
  | .expression e => [e.outline]

/-- Runs a line, without printing anything of it. -/
def go {m : Type → Type} [Monad m] (run : Runner m) :
    Line → World → m (Reply (Option String) × World)
  | .statements body, w =>
    (fun r => (r.1.toReply.map fun _ => none, r.2)) <$> w.execute run body
  | .expression e, w =>
    (fun r => (r.1.toReply.map fun v => some v.render, r.2)) <$> w.evaluate run e

theorem go_grows {tree : Line} {w w' : World} {n : Nat} {reply : Reply (Option String)}
    (h : tree.go (State.run n) w = some (reply, w')) : w.sink.Grows w'.sink := by
  cases tree with
  | statements body =>
    obtain ⟨⟨ending, w₁⟩, hr, he⟩ := Option.map_eq_some_iff.mp h
    cases he
    exact World.execute_grows hr
  | expression e =>
    obtain ⟨⟨ending, w₁⟩, hr, he⟩ := Option.map_eq_some_iff.mp h
    cases he
    exact World.evaluate_grows hr

end Line

namespace Session

variable {s s' : Session} {n : Nat}

theorem display_grows (texts : List String) (w : World) :
    w.sink.Grows (display texts w).2.sink := Sink.carryOut_grows _ _

theorem announce_eq {m : Type → Type} [Monad m] {α : Type} (outlines : List String)
    (go : World → m (Ending α × World)) :
    s.announce outlines go =
      match display (if s.debug then outlines else []) s.world with
      | (.error e, w) => pure (.failed (.output e), { s with world := w })
      | (.ok (), w) => go w >>= fun r => pure (r.1.toReply, { s with world := r.2 }) := rfl

/-- A tree that nothing is wrong with is run once its outlines are printed. -/
theorem obey_tree {m : Type → Type} [Monad m] [LawfulMonad m] (run : Runner m) (tree : Line) :
    s.obey run ⟨tree, []⟩ =
      match display (if s.debug then tree.outlines else []) s.world with
      | (.error e, w) => pure (.failed (.output e), { s with world := w })
      | (.ok (), w) => (fun r => (r.1, { s with world := r.2 })) <$> tree.go run w := by
  cases tree with
  | statements body =>
    show _ <$> s.announce (body.map (·.outline indentation 0)) (World.execute run body) = _
    rw [announce_eq]
    simp only [Line.outlines, Line.go]
    split <;> simp [Reply.map]
  | expression e =>
    show _ <$> s.announce [e.outline] (World.evaluate run e) = _
    rw [announce_eq]
    simp only [Line.outlines, Line.go]
    split <;> simp [Reply.map]

theorem obey_grows {x : Examined Line} {reply : Reply (Option String)}
    (h : s.obey (State.run n) x = some (reply, s')) : s.world.sink.Grows s'.world.sink := by
  obtain ⟨tree, _ | ⟨d, ds⟩⟩ := x
  · have hdisplay := display_grows (if s.debug then tree.outlines else []) s.world
    rw [obey_tree] at h
    split at h
    · rename_i e w he
      cases h
      rw [he] at hdisplay
      exact hdisplay
    · rename_i w he
      rw [he] at hdisplay
      obtain ⟨⟨reply, w'⟩, hr, h⟩ := Option.map_eq_some_iff.mp h
      cases h
      exact hdisplay.trans (Line.go_grows hr)
  · cases h
    exact .refl

end Session

end Script
