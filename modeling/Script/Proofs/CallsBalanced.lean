import Script.Proofs.NoScopeLeaks

/-!
# Every call comes back to where it was made

Whatever is evaluated or executed, and however it ends, the current scope and the depth of calls are
afterwards what they were before. The frames say why: each scope that is entered has a frame that
goes back, and each call that is begun has a frame that ends it. So the depth is the number of calls
in progress at every moment, and that is what the limit on calls is about.
-/

namespace Script

/-- The scope that is the current one when all frames are done, if it is `here` now. -/
def Frame.home : ScopeId → List Frame → ScopeId
  | here, [] => here
  | _, .leave _ back :: k => home back k
  | here, _ :: k => home here k

/-- How many function bodies the frames wait for. -/
def Frame.calls : List Frame → Nat
  | [] => 0
  | .endCall :: k => calls k + 1
  | _ :: k => calls k

/-- How many calls are in progress. -/
def State.calls (s : State) : Nat := Frame.calls s.frames

/-- The call that the next step makes, if it makes one: its closing parenthesis, what is called, and
the arguments. -/
def State.nextCall? : State → Option (Token × Value × List Value)
  | ⟨.value v, .callee paren [] :: _, _⟩ => some (paren, v, [])
  | ⟨.value v, .argument paren callee done [] :: _, _⟩ => some (paren, callee, (v :: done).reverse)
  | _ => none

structure World.SamePlace (w w' : World) : Prop where
  scope : w'.scope = w.scope
  depth : w'.depth = w.depth

/-- With the frames `k` on top of it, a run that began in the scope `home` at depth `base` is in
balance. -/
structure World.Balanced (home : ScopeId) (base : Nat) (k : List Frame) (w : World) : Prop where
  scope : Frame.home w.scope k = home
  depth : w.depth = base + Frame.calls k
  limit : w.depth ≤ max base maxDepth

def State.Balanced (home : ScopeId) (base : Nat) (s : State) : Prop :=
  s.world.Balanced home base s.frames

def Frame.isPlain : Frame → Bool
  | .leave _ _ | .endCall => false
  | _ => true

theorem Frame.isPlain_of_takesValue {f : Frame} (h : f.takesValue = true) : f.isPlain = true := by
  cases f with
  | leave | endCall => cases h
  | _ => rfl

/-! ## Operations on the world -/

namespace World

variable {w w' w'' : World}

theorem balanced_cons {home : ScopeId} {base : Nat} {f : Frame} {k : List Frame}
    (hf : f.isPlain = true) : w.Balanced home base (f :: k) ↔ w.Balanced home base k := by
  have hhome : Frame.home w.scope (f :: k) = Frame.home w.scope k := by
    cases f with
    | leave | endCall => cases hf
    | _ => rfl
  have hcalls : Frame.calls (f :: k) = Frame.calls k := by
    cases f with
    | leave | endCall => cases hf
    | _ => rfl
  constructor
  · intro h
    exact ⟨hhome ▸ h.scope, hcalls ▸ h.depth, h.limit⟩
  · intro h
    exact ⟨hhome ▸ h.scope, hcalls ▸ h.depth, h.limit⟩

theorem SamePlace.trans (h : w.SamePlace w') (h' : w'.SamePlace w'') : w.SamePlace w'' :=
  ⟨h'.scope.trans h.scope, h'.depth.trans h.depth⟩

theorem define_samePlace (w : World) (name : Token) (value : Option Value) :
    w.SamePlace (w.define name value).2 := by
  unfold define
  split <;> exact ⟨rfl, rfl⟩

theorem assign_samePlace (w : World) (name : Token) (value : Value) :
    w.SamePlace (w.assign name value).2 := by
  unfold assign
  split <;> exact ⟨rfl, rfl⟩

theorem bind_samePlace (w : World) (params : List (Token × Value)) :
    w.SamePlace (w.bind params).2 := by
  induction params generalizing w with
  | nil => exact ⟨rfl, rfl⟩
  | cons p rest ih =>
    have hd := w.define_samePlace p.1 (some p.2)
    unfold bind
    split
    · rename_i w' he
      rw [he] at hd
      exact hd.trans (ih w')
    · rename_i e w' he
      rw [he] at hd
      exact hd

theorem operate_samePlace (w : World) (ops : List Sink.Operation) (effect : Effect) :
    w.SamePlace (w.operate ops effect).2 := by
  unfold operate
  split <;> exact ⟨rfl, rfl⟩

theorem perform_samePlace (w : World) (args : List Value) (a : Action) :
    w.SamePlace (w.perform args a).2 := by
  cases a with
  | clock => exact ⟨rfl, rfl⟩
  | print | println | exit => exact operate_samePlace w _ _
  | read =>
    simp only [perform]
    split <;> exact ⟨rfl, rfl⟩

end World

/-! ## One step -/

namespace State

variable {home : ScopeId} {base : Nat} {k : List Frame} {w : World}

theorem balanced_samePlace {w' : World} (h : w.Balanced home base k) (hw : w.SamePlace w')
    (c : Control) : Balanced home base ⟨c, k, w'⟩ :=
  ⟨hw.scope ▸ h.scope, hw.depth ▸ h.depth, hw.depth ▸ h.limit⟩

theorem balanced_push (h : w.Balanced home base k) {f : Frame} (hf : f.isPlain = true)
    (c : Control) : Balanced home base ⟨c, f :: k, w⟩ :=
  (World.balanced_cons hf).mpr h

theorem ofResult_balanced (h : w.Balanced home base k) (r : Except RuntimeError Value) :
    Balanced home base (ofResult k w r) := by
  cases r <;> exact h

theorem after_balanced {r : Except RuntimeError Unit × World} (h : w.Balanced home base k)
    (hr : w.SamePlace r.2) (c : Control) : Balanced home base (after k c r) := by
  obtain ⟨r, w'⟩ := r
  cases r with
  | ok u => exact balanced_samePlace h hr c
  | error e => exact balanced_samePlace h hr (.raise e)

theorem eval_balanced (h : w.Balanced home base k) (e : Expr) :
    Balanced home base (eval k w e) := by
  cases e with
  | assign | binary | logical | unary | call => exact balanced_push h rfl _
  | group | constant => exact h
  | reference name => exact ofResult_balanced h _

theorem exec_balanced (h : w.Balanced home base k) (s : Stmt) :
    Balanced home base (exec k w s) := by
  cases s with
  | block body => exact ⟨h.scope, h.depth, h.limit⟩
  | breakLoop | continueLoop => exact h
  | expr | forLoop | ifThen | ifElse | whileLoop => exact balanced_push h rfl _
  | func name params body =>
    have hclose : w.SamePlace (w.close name params body).2 := ⟨rfl, rfl⟩
    exact after_balanced h (hclose.trans (World.define_samePlace _ name _)) _
  | ret keyword value =>
    cases value with
    | none => exact h
    | some e => exact balanced_push h rfl _
  | declare name value =>
    cases value with
    | none => exact after_balanced h (w.define_samePlace name none) _
    | some e => exact balanced_push h rfl _

theorem callFunction_balanced (h : w.Balanced home base k) (hlt : w.depth < World.maxDepth)
    (params : List Token) (body : List Stmt) (closure : ScopeId) (args : List Value) :
    Balanced home base (callFunction k w params body closure args) := by
  have hb := (w.enter closure).bind_samePlace (params.zip args)
  simp only [callFunction]
  split
  · rename_i w' he
    rw [he] at hb
    have hdepth : w'.depth = w.depth := hb.depth
    have hd := h.depth
    -- the frame of the body leads back to the caller's scope, so only the depth is left to show
    refine ⟨h.scope, ?_, ?_⟩
    · show w'.depth + 1 = base + (Frame.calls k + 1)
      omega
    · show w'.depth + 1 ≤ max base World.maxDepth
      omega
  · rename_i e w' he
    rw [he] at hb
    have hdepth : w'.depth = w.depth := hb.depth
    have hleave : w.SamePlace (w'.leave w'.scope w.scope) := ⟨rfl, hdepth⟩
    exact balanced_samePlace h hleave _

theorem call_balanced (h : w.Balanced home base k) (paren : Token) (callee : Value)
    (args : List Value) : Balanced home base (call k w paren callee args) := by
  cases callee with
  | nil | bool | number | text => exact h
  | callable identity c =>
    simp only [call]
    split
    · exact h
    · split
      · exact h
      · rename_i hlt
        cases c with
        | function name params body closure =>
          exact callFunction_balanced h (Nat.not_le.mp hlt) params body closure args
        | native n =>
          have hp := w.perform_samePlace args n.action
          simp only []
          split
          all_goals
            rename_i he
            rw [he] at hp
            exact balanced_samePlace h hp _

theorem nextArgument_balanced (h : w.Balanced home base k) (paren : Token) (callee : Value)
    (done : List Value) (args : List Expr) :
    Balanced home base (nextArgument k w paren callee done args) := by
  cases args with
  | nil => exact call_balanced h paren callee done.reverse
  | cons arg args => exact balanced_push h rfl _

theorem resume_balanced {f : Frame} (hf : f.takesValue = true) (h : w.Balanced home base (f :: k))
    (v : Value) : Balanced home base (resume k w v f) := by
  have hk := (World.balanced_cons (Frame.isPlain_of_takesValue hf)).mp h
  cases f with
  | assign name => exact after_balanced hk (w.assign_samePlace name v) _
  | right left op => exact ofResult_balanced hk _
  | sign op => exact ofResult_balanced hk _
  | decide op right =>
    simp only [resume]
    split <;> exact hk
  | callee paren args => exact nextArgument_balanced hk paren v [] args
  | argument paren callee done args => exact nextArgument_balanced hk paren callee (v :: done) args
  | branch body otherwise =>
    simp only [resume]
    split
    · exact hk
    · cases otherwise <;> exact hk
  | declare name => exact after_balanced hk (w.define_samePlace name (some v)) _
  | test loop =>
    simp only [resume]
    split
    · exact balanced_push hk rfl _
    · exact hk
  | left | stepped => exact balanced_push hk rfl _
  | discard | giveBack => exact hk
  | round | sequence | leave | endCall => cases hf

theorem endCall_balanced (h : w.Balanced home base (.endCall :: k)) (c : Control) :
    Balanced home base ⟨c, k, { w with depth := w.depth - 1 }⟩ := by
  have hdepth : w.depth = base + (Frame.calls k + 1) := h.depth
  have hlimit := h.limit
  refine ⟨h.scope, ?_, ?_⟩
  · show w.depth - 1 = base + Frame.calls k
    omega
  · show w.depth - 1 ≤ max base World.maxDepth
    omega

theorem proceed_balanced {f : Frame} (hf : f.takesValue = false)
    (h : w.Balanced home base (f :: k)) (flow : Flow) :
    Balanced home base (proceed k w flow f) := by
  cases f with
  | round loop =>
    have hk := (World.balanced_cons rfl).mp h
    cases flow with
    | broke | returned => exact hk
    | normal | continued =>
      simp only [proceed]
      split <;> exact balanced_push hk rfl _
  | sequence rest =>
    have hk := (World.balanced_cons rfl).mp h
    cases flow with
    | normal =>
      cases rest with
      | nil => exact hk
      | cons s rest => exact balanced_push hk rfl _
    | broke | continued | returned => exact hk
  | leave left back => exact ⟨h.scope, h.depth, h.limit⟩
  | endCall => exact endCall_balanced h _
  | _ => cases hf

theorem unwind_balanced {f : Frame} (h : w.Balanced home base (f :: k)) (e : RuntimeError) :
    Balanced home base (unwind k w e f) := by
  cases f with
  | leave left back => exact ⟨h.scope, h.depth, h.limit⟩
  | endCall => exact endCall_balanced h _
  | _ => exact (World.balanced_cons rfl).mp h

theorem step_balanced {s : State} (hf : s.Fitting) (h : s.Balanced home base) :
    s.step.Balanced home base := by
  obtain ⟨c, k, w⟩ := s
  obtain ⟨b, hb, hk⟩ := hf
  cases c with
  | eval e => exact eval_balanced h e
  | exec s => exact exec_balanced h s
  | value v =>
    cases hb
    cases k with
    | nil => exact h
    | cons f k => exact resume_balanced hk.1 h v
  | flow flow =>
    cases hb
    cases k with
    | nil => exact h
    | cons f k => exact proceed_balanced hk.1 h flow
  | raise e =>
    cases k with
    | nil => exact h
    | cons f k => exact unwind_balanced h e
  | exit => exact h

/-! ## The limit on calls -/

theorem step_nextCall {s : State} {paren : Token} {callee : Value} {args : List Value}
    (h : s.nextCall? = some (paren, callee, args)) :
    s.step = call s.frames.tail s.world paren callee args := by
  unfold nextCall? at h
  split at h
  · cases h
    rfl
  · cases h
    rfl
  · cases h

theorem callFunction_not_tooDeep (paren : Token) (params : List Token) (body : List Stmt)
    (closure : ScopeId) (args : List Value) :
    (callFunction k w params body closure args).control ≠ .raise ⟨paren, .tooDeep⟩ := by
  have hbind : ∀ (ps : List (Token × Value)) (w w' : World) (e : RuntimeError),
      w.bind ps = (.error e, w') → e.fault ≠ .tooDeep := by
    intro ps
    induction ps with
    | nil =>
      intro w w' e he
      cases he
    | cons p ps ih =>
      intro w w' e he
      unfold World.bind at he
      split at he
      · exact ih _ w' e he
      · rename_i e' w'' hd
        cases he
        unfold World.define at hd
        split at hd
        · cases hd
        · cases hd
          simp
  simp only [callFunction]
  split
  · simp
  · rename_i e w' he
    intro hraise
    cases hraise
    exact hbind _ _ _ _ he rfl

theorem perform_not_tooDeep (args : List Value) (a : Action) :
    (w.perform args a).1 ≠ .fault .tooDeep := by
  cases a with
  | clock => simp [World.perform]
  | print | println | exit =>
    simp only [World.perform, World.operate]
    split <;> simp
  | read =>
    simp only [World.perform]
    split <;> simp

theorem call_tooDeep (paren : Token) (identity : Nat) {c : Callable} {args : List Value}
    (hc : c.arity.accepts args.length = true) :
    (call k w paren (.callable identity c) args).control = .raise ⟨paren, .tooDeep⟩ ↔
      World.maxDepth ≤ w.depth := by
  simp only [call, hc]
  by_cases hd : World.maxDepth ≤ w.depth
  · simp [hd]
  · simp only [hd, iff_false]
    cases c with
    | function name params body closure =>
      exact callFunction_not_tooDeep paren params body closure args
    | native n =>
      have hp := perform_not_tooDeep (w := w) args n.action
      simp only [Bool.not_true, Bool.false_eq_true, if_false]
      split
      · simp
      · rename_i f w' he
        rw [he] at hp
        intro hraise
        cases hraise
        exact hp rfl
      · simp

end State

/-! ## Runs -/

namespace World

open State

variable {w w' : World} {n : Nat}

theorem start_fitting (w : World) (x : Tree) : (w.start x).Fitting := by
  cases x with
  | stmt s => exact ⟨false, rfl, trivial⟩
  | expr e => exact ⟨true, rfl, trivial⟩

theorem start_balanced (w : World) (x : Tree) : (w.start x).Balanced w.scope w.depth := by
  cases x <;> exact ⟨rfl, rfl, Nat.le_max_left _ _⟩

theorem iterate_balanced (w : World) (x : Tree) (m : Nat) :
    (step^[m] (w.start x)).Fitting ∧ (step^[m] (w.start x)).Balanced w.scope w.depth := by
  induction m with
  | zero => exact ⟨w.start_fitting x, w.start_balanced x⟩
  | succ m ih =>
    rw [Function.iterate_succ_apply']
    exact ⟨step_fitting ih.1, step_balanced ih.1 ih.2⟩

theorem run_samePlace {x : Tree} {o : Outcome} (h : run n (w.start x) = some (o, w'))
    (ho : o ≠ .exit) : w.SamePlace w' := by
  obtain ⟨m, hm, rfl⟩ := run_iterate h
  have hb := (w.iterate_balanced x m).2
  have hframes : (step^[m] (w.start x)).frames = [] := Idle.frames ⟨o, hm, ho⟩
  unfold State.Balanced at hb
  rw [hframes] at hb
  exact ⟨hb.scope, hb.depth⟩

end World

/-! ## Calls -/

namespace State

theorem Reaches.balanced {s t : State} (hr : Reaches s t) (hf : s.Fitting)
    (h : s.Balanced home base) : t.Fitting ∧ t.Balanced home base := by
  induction hr with
  | refl => exact ⟨hf, h⟩
  | tail _ hm ih =>
    obtain ⟨hf', h'⟩ := ih
    cases hm with
    | step => exact ⟨step_fitting hf', step_balanced hf' h'⟩
    | exec hi body =>
      unfold State.Balanced at h'
      rw [hi.frames] at h'
      exact ⟨⟨false, rfl, trivial⟩, h'⟩
    | eval hi e =>
      unfold State.Balanced at h'
      rw [hi.frames] at h'
      exact ⟨⟨true, rfl, trivial⟩, h'⟩

end State

namespace World

open State

variable {w w' : World} {n : Nat}

/-- Goes back to the global scope, out of all calls. -/
def recover (w : World) : World := { w with scope := .global, depth := 0 }

/-- Makes a call, and recovers if it fails. -/
def callRecovering (n : Nat) (w : World) (line : Line) : Option (Sight × World) :=
  (w.call n line).map fun (sight, w') =>
    match sight.ending with
    | .failed _ => (sight, w'.recover)
    | _ => (sight, w')

/-- A call is a row of moves. -/
theorem call_reaches {s : State} (hs : s.Idle) {line : Line} {sight : Sight}
    (h : s.world.call n line = some (sight, w)) :
    ∃ t, Reaches s t ∧ t.world = w ∧ (sight.ending ≠ .exited → t.Idle) := by
  cases line with
  | statements body =>
    obtain ⟨⟨ending, w'⟩, hr, he⟩ := Option.map_eq_some_iff.mp h
    cases he
    obtain ⟨t, ht, hw, hidle⟩ := execute_reaches hs hr
    exact ⟨t, ht, hw, fun hne => hidle fun heq => hne (by rw [heq]; rfl)⟩
  | expression e =>
    obtain ⟨⟨ending, w'⟩, hr, he⟩ := Option.map_eq_some_iff.mp h
    cases he
    obtain ⟨t, ht, hw, hidle⟩ := evaluate_reaches hs hr
    exact ⟨t, ht, hw, fun hne => hidle fun heq => hne (by rw [heq]; rfl)⟩

theorem Leads.reaches {calls : List Line} {s : State} (hs : s.Idle)
    (h : Leads s.world calls w) : ∃ t, Reaches s t ∧ t.Idle ∧ t.world = w := by
  generalize hw : s.world = w₀ at h
  induction h generalizing s with
  | nil => exact ⟨s, .refl, hs, hw⟩
  | cons hshow hne _ ih =>
    obtain ⟨n, hn⟩ := hshow
    rw [← hw] at hn
    obtain ⟨t, ht, hworld, hidle⟩ := call_reaches hs hn
    obtain ⟨u, hu, hdone⟩ := ih (hidle hne) hworld
    exact ⟨u, ht.trans hu, hdone⟩

section
variable {sink : Sink} {input : Input} {clock : Nat → Float} {s : State}
  (hs : Reaches (State.fresh sink input clock) s) (hidle : s.Idle)
include hs hidle

/-- Whenever nothing is being done, there is nothing to recover. -/
theorem recover_idle : s.world.recover = s.world := by
  have hfresh : (State.fresh sink input clock).Balanced .global 0 := ⟨rfl, rfl, Nat.zero_le _⟩
  have hb := (hs.balanced (fresh_idle sink input clock).fitting hfresh).2
  unfold State.Balanced at hb
  rw [hidle.frames] at hb
  have hscope : s.world.scope = .global := hb.scope
  have hdepth : s.world.depth = 0 := hb.depth
  rw [recover, ← hscope, ← hdepth]

/-- So a call need not recover, also if it fails. -/
theorem callRecovering_eq (n : Nat) (line : Line) :
    s.world.callRecovering n line = s.world.call n line := by
  unfold callRecovering
  rcases hcall : s.world.call n line with _ | ⟨⟨ending, sink', input'⟩, w⟩
  · rfl
  · obtain ⟨t, ht, hw, hdone⟩ := call_reaches hidle hcall
    cases ending with
    | done | exited => rfl
    | failed e =>
      have hrecover := recover_idle (hs.trans ht) (hdone (by simp))
      rw [hw] at hrecover
      simp only [Option.map_some, hrecover]

end

/-- Whatever a tree comes to, a run of it goes back to the scope and to the depth that it began
with, so between calls in a new world they are those of the beginning. At every moment of a run from
depth 0 the depth is the number of calls in progress, which are at most 10,000, and a call is refused
for its depth just when that many are in progress. -/
theorem scope_and_depth_restored :
    (∀ (w : World) (x : Tree) (n : Nat) (o : Outcome) (w' : World),
      State.run n (w.start x) = some (o, w') → o ≠ .exit →
        w'.scope = w.scope ∧ w'.depth = w.depth) ∧
    (∀ (sink : Sink) (input : Input) (clock : Nat → Float) (calls : List Line) (w : World),
      Leads { sink, input, clock } calls w → w.scope = .global ∧ w.depth = 0) ∧
    ∀ (w : World) (x : Tree) (m : Nat), w.depth = 0 →
      let s := step^[m] (w.start x)
      s.world.depth = s.calls ∧ s.calls ≤ 10000 ∧
      ∀ paren identity c args, s.nextCall? = some (paren, .callable identity c, args) →
        c.arity.accepts args.length = true →
          (s.step.control = .raise ⟨paren, .tooDeep⟩ ↔ s.calls = 10000) := by
  refine ⟨fun w x n o w' hr ho => ?_, fun sink input clock calls w h => ?_, fun w x m hw => ?_⟩
  · obtain ⟨hscope, hdepth⟩ := run_samePlace hr ho
    exact ⟨hscope, hdepth⟩
  · obtain ⟨s, hs, hidle, rfl⟩ := Leads.reaches (fresh_idle sink input clock) h
    have hrecover := recover_idle hs hidle
    exact ⟨congrArg World.scope hrecover.symm, congrArg World.depth hrecover.symm⟩
  · intro s
    have hb : s.Balanced w.scope w.depth := (w.iterate_balanced x m).2
    rw [hw] at hb
    have hcalls : s.world.depth = s.calls := hb.depth.trans (Nat.zero_add _)
    have hlimit : s.world.depth ≤ 10000 := hb.limit
    refine ⟨hcalls, hcalls ▸ hlimit, fun paren identity c args hcall hc => ?_⟩
    rw [step_nextCall hcall, call_tooDeep paren identity hc, ← hcalls]
    exact ⟨fun hd => Nat.le_antisymm hlimit hd, fun hd => Nat.le_of_eq hd.symm⟩

/-- `f()`, for a function `f` without arguments. -/
def plainCall (f : String) : Expr :=
  .call (.reference ⟨.name, f, none, .start⟩) ⟨.rightParen, ")", none, .start⟩ []

/-- `{ func f() { println(); } f(); }`. -/
def nestedCall : Tree :=
  .stmt (.block [.func ⟨.name, "f", none, .start⟩ [] [.expr (plainCall "println")],
    .expr (plainCall "f")])

/-- A call made while another one is in progress, a run that ends, and a call that fails. -/
theorem scope_and_depth_restored_nested :
    (∃ w, State.run 30 (start {} nestedCall) = some (.flow .normal, w) ∧
      w.scope = .global ∧ w.depth = 0) ∧
    (∃ w, Leads {} [.statements [], .expression (plainCall "f")] w ∧
      w.scope = .global ∧ w.depth = 0) ∧
    (step^[12] (start {} nestedCall)).calls = 1 ∧
    ∃ paren identity c args,
      (step^[12] (start {} nestedCall)).nextCall? = some (paren, .callable identity c, args) ∧
      c.arity.accepts args.length = true ∧
      ((step^[12] (start {} nestedCall)).step.control = .raise ⟨paren, .tooDeep⟩ ↔
        (step^[12] (start {} nestedCall)).calls = 10000) := by
  refine ⟨?_, ?_, by decide +kernel, ?_⟩
  · have hrun : ∃ w, State.run 30 (start {} nestedCall) = some (.flow .normal, w) := ⟨_, rfl⟩
    obtain ⟨w, hw⟩ := hrun
    exact ⟨w, hw, scope_and_depth_restored.1 {} nestedCall 30 _ w hw (by simp)⟩
  · have hleads : ∃ w, Leads {} [.statements [], .expression (plainCall "f")] w :=
      ⟨_, .cons ⟨1, rfl⟩ (by simp [Ending.map]) (.cons ⟨9, rfl⟩ (by simp [Ending.map]) .nil)⟩
    obtain ⟨w, hw⟩ := hleads
    exact ⟨w, hw, scope_and_depth_restored.2.1 {} {} (fun _ => 0) _ w hw⟩
  · exact ⟨_, _, _, _, rfl, rfl,
      (scope_and_depth_restored.2.2 {} nestedCall 12 rfl).2.2 _ _ _ _ rfl rfl⟩

end World

end Script
