import Script.Proofs.FramesFit
import Script.Proofs.Runs
import Script.Proofs.ScopesSound

/-!
# No function outlives its scope

The scopes that are open in a state of the machine are those that its frames
leave. With respect to them the store stays tidy from step to step, whatever the
trees that are run, and so the scope of every function that can still be called
is in use, and a walk outward from a scope in use ends at the global one.
-/

namespace Script

/-! ## What a state holds -/

def Control.values : Control → List Value
  | .value v => [v]
  | .flow (.returned v) => [v]
  | _ => []

def Frame.values : Frame → List Value
  | .right v _ => [v]
  | .argument _ v done _ => v :: done
  | _ => []

def Frame.isLeave : Frame → Bool
  | .leave _ _ => true
  | _ => false

/-- The scopes that the frames leave, the innermost first. -/
def Frame.opened : List Frame → List ScopeId
  | [] => []
  | .leave id _ :: k => id :: opened k
  | _ :: k => opened k

/-- Leaving a scope goes back to the one that is open below. -/
def Frame.Backs : List Frame → Prop
  | [] => True
  | .leave _ back :: k => back = (opened k).headD .global ∧ Backs k
  | _ :: k => Backs k

/-- A value that exists in a state: it is the outcome at hand, waits in a frame, or is bound to a
name in some scope. -/
def State.Holds (s : State) (v : Value) : Prop :=
  v ∈ s.control.values ∨ (∃ f ∈ s.frames, v ∈ f.values) ∨
    ∃ id name, (name, some v) ∈ (s.world.scopes.scope id).bindings

/-! ## The invariant -/

theorem Scopes.keeps_none {s : Scopes} : ∀ v ∈ ([] : List Value), s.Keeps v := by simp

theorem Scopes.keeps_one {s : Scopes} {v : Value} (h : s.Keeps v) : ∀ u ∈ [v], s.Keeps u := by
  simpa using h

theorem Scopes.keeps_plain {s : Scopes} {v : Value} (h : v.closure? = none) : s.Keeps v := by
  intro c hc
  rw [h] at hc; cases hc

structure World.Sound (w : World) (k : List Frame) : Prop where
  store : w.scopes.Sound (Frame.opened k)
  current : w.scope = (Frame.opened k).headD .global
  backs : Frame.Backs k
  waiting : ∀ f ∈ k, ∀ v ∈ f.values, w.scopes.Keeps v

structure State.Sound (s : State) : Prop where
  world : s.world.Sound s.frames
  outcome : ∀ v ∈ s.control.values, s.world.scopes.Keeps v

/-- A sound state that follows on the world `w` in one step. -/
structure State.Follows (w : World) (s : State) : Prop extends s.Sound where
  retains : w.scopes.Retains s.world.scopes

theorem Frame.opened_cons {f : Frame} (hf : f.isLeave = false) (k : List Frame) :
    opened (f :: k) = opened k := by
  cases f <;> first | rfl | cases hf

theorem Frame.backs_cons {f : Frame} (hf : f.isLeave = false) (k : List Frame) :
    Backs (f :: k) ↔ Backs k := by
  cases f <;> first | rfl | cases hf

namespace World.Sound

variable {w : World} {k : List Frame} {f : Frame}

theorem scope_live (h : w.Sound k) : w.scopes.Live w.scope := by
  rw [h.current]
  exact h.store.tidy.head_live

theorem cons (h : w.Sound k) (hf : f.isLeave = false)
    (hv : ∀ v ∈ f.values, w.scopes.Keeps v) : w.Sound (f :: k) where
  store := by rw [Frame.opened_cons hf]; exact h.store
  current := by rw [Frame.opened_cons hf]; exact h.current
  backs := (Frame.backs_cons hf k).mpr h.backs
  waiting g hg := by
    rcases List.mem_cons.mp hg with rfl | hg
    · exact hv
    · exact h.waiting g hg

theorem uncons (h : w.Sound (f :: k)) (hf : f.isLeave = false) : w.Sound k where
  store := by have := h.store; rwa [Frame.opened_cons hf] at this
  current := by have := h.current; rwa [Frame.opened_cons hf] at this
  backs := (Frame.backs_cons hf k).mp h.backs
  waiting g hg := h.waiting g (by simp [hg])

theorem top (h : w.Sound (f :: k)) : ∀ v ∈ f.values, w.scopes.Keeps v :=
  h.waiting f (by simp)

/-! ## What each operation on the world keeps -/

theorem define (h : w.Sound k) (name : Token) (value : Option Value)
    (hv : ∀ v, value = some v → w.scopes.Keeps v) :
    (w.define name value).2.Sound k ∧ w.scopes.Retains (w.define name value).2.scopes := by
  obtain ⟨hs, hr⟩ := h.store.define w.scope name.source value hv
  have he : (w.define name value).2 =
      { w with scopes := (w.scopes.define w.scope name.source value).2 } := by
    unfold World.define
    split <;> simp [*]
  rw [he]
  exact ⟨⟨hs, h.current, h.backs, fun g hg v hv => (h.waiting g hg v hv).mono hr⟩, hr⟩

theorem assign (h : w.Sound k) (name : Token) (value : Value) (hv : w.scopes.Keeps value) :
    (w.assign name value).2.Sound k ∧ w.scopes.Retains (w.assign name value).2.scopes := by
  obtain ⟨hs, hr⟩ := h.store.assign w.scope name.source value hv
  have he : (w.assign name value).2 =
      { w with scopes := (w.scopes.assign w.scope name.source value).2 } := by
    unfold World.assign
    split <;> simp [*]
  rw [he]
  exact ⟨⟨hs, h.current, h.backs, fun g hg v hv => (h.waiting g hg v hv).mono hr⟩, hr⟩

theorem lookup_keeps (h : w.Sound k) {name : Token} {v : Value} (hv : w.lookup name = .ok v) :
    w.scopes.Keeps v := by
  unfold World.lookup at hv
  split at hv
  · rename_i u hg
    cases hv
    exact h.store.get_keeps hg
  · cases hv
  · cases hv

theorem close (h : w.Sound k) (name : Token) (params : List Token) (body : List Stmt) :
    (w.close name params body).2.Sound k ∧
      w.scopes.Retains (w.close name params body).2.scopes ∧
      (w.close name params body).2.scopes.Keeps (w.close name params body).1 := by
  obtain ⟨-, hr, hc⟩ := h.store.tidy.capture h.scope_live
  refine ⟨⟨h.store.capture h.scope_live, h.current, h.backs, ?_⟩, hr, ?_⟩
  · exact fun g hg v hv => (h.waiting g hg v hv).mono hr
  · intro c e
    cases e
    exact hc

/-- Entering a scope inside the current one or inside a kept one. -/
theorem enter (h : w.Sound k) (parent : ScopeId)
    (hp : parent = w.scope ∨ (w.scopes.scope parent).captured = true) :
    (w.enter parent).Sound (.leave (w.enter parent).scope w.scope :: k) ∧
      w.scopes.Retains (w.enter parent).scopes := by
  rw [h.current] at hp
  have hr := h.store.tidy.push_retains parent
  refine ⟨⟨h.store.push parent hp, rfl, ⟨h.current, h.backs⟩, ?_⟩, hr⟩
  intro g hg v hv
  rcases List.mem_cons.mp hg with rfl | hg
  · cases hv
  · exact (h.waiting g hg v hv).mono hr

theorem leave {left back : ScopeId} (h : w.Sound (.leave left back :: k)) :
    (w.leave left back).Sound k ∧ w.scopes.Retains (w.leave left back).scopes := by
  have hr := h.store.tidy.release.2
  refine ⟨⟨h.store.release, h.backs.1, h.backs.2, ?_⟩, hr⟩
  exact fun g hg v hv => (h.waiting g (by simp [hg]) v hv).mono hr

theorem bind (h : w.Sound k) (params : List (Token × Value))
    (hv : ∀ p ∈ params, w.scopes.Keeps p.2) :
    (w.bind params).2.Sound k ∧ w.scopes.Retains (w.bind params).2.scopes := by
  induction params generalizing w with
  | nil => exact ⟨h, .refl _⟩
  | cons p rest ih =>
    obtain ⟨hs, hr⟩ := h.define p.1 (some p.2) fun v e => by cases e; exact hv p (by simp)
    unfold World.bind
    split
    · rename_i w' he
      rw [he] at hs hr
      obtain ⟨hs', hr'⟩ := ih hs fun q hq => (hv q (by simp [hq])).mono hr
      exact ⟨hs', hr.trans hr'⟩
    · rename_i e w' he
      rw [he] at hs hr
      exact ⟨hs, hr⟩

end World.Sound

/-! ## One step -/

namespace State

open Scopes

variable {w : World} {k : List Frame}

theorem follows_same (h : w.Sound k) {c : Control} (hc : ∀ v ∈ c.values, w.scopes.Keeps v) :
    Follows w ⟨c, k, w⟩ :=
  ⟨⟨h, hc⟩, .refl _⟩

theorem follows_cons (h : w.Sound k) {c : Control} {f : Frame}
    (hc : ∀ v ∈ c.values, w.scopes.Keeps v) (hf : f.isLeave = false)
    (hv : ∀ v ∈ f.values, w.scopes.Keeps v) : Follows w ⟨c, f :: k, w⟩ :=
  follows_same (h.cons hf hv) hc

theorem ofResult_follows (h : w.Sound k) (r : Except RuntimeError Value)
    (hr : ∀ v, r = .ok v → w.scopes.Keeps v) : Follows w (ofResult k w r) := by
  cases r with
  | ok v => exact follows_same h (keeps_one (hr v rfl))
  | error e => exact follows_same h keeps_none

theorem after_follows {r : Except RuntimeError Unit × World} {c : Control}
    (h : r.2.Sound k ∧ w.scopes.Retains r.2.scopes) (hc : ∀ v ∈ c.values, w.scopes.Keeps v) :
    Follows w (after k c r) := by
  obtain ⟨r, w'⟩ := r
  cases r with
  | ok u => exact ⟨⟨h.1, fun v hv => (hc v hv).mono h.2⟩, h.2⟩
  | error e => exact ⟨⟨h.1, keeps_none⟩, h.2⟩

theorem isCallable_ofConstant (c : Constant) : (Value.ofConstant c).isCallable = false := by
  cases c <;> rfl

theorem closure?_ofConstant (c : Constant) : (Value.ofConstant c).closure? = none :=
  Value.closure?_of_isCallable (isCallable_ofConstant c)

theorem eval_follows (h : w.Sound k) (e : Expr) : Follows w (eval k w e) := by
  cases e with
  | assign | binary | logical | unary | call =>
    exact follows_cons h keeps_none rfl keeps_none
  | group => exact follows_same h keeps_none
  | constant value =>
    exact follows_same h (keeps_one (keeps_plain (closure?_ofConstant value)))
  | reference name => exact ofResult_follows h _ fun v hv => h.lookup_keeps hv

theorem exec_follows (h : w.Sound k) (s : Stmt) : Follows w (exec k w s) := by
  cases s with
  | block body =>
    obtain ⟨hs, hr⟩ := h.enter w.scope (.inl rfl)
    exact ⟨⟨hs.cons rfl keeps_none, keeps_none⟩, hr⟩
  | breakLoop | continueLoop => exact follows_same h keeps_none
  | expr | forLoop | ifThen | ifElse | whileLoop =>
    exact follows_cons h keeps_none rfl keeps_none
  | func name params body =>
    obtain ⟨hs, hr, hk⟩ := h.close name params body
    obtain ⟨hs', hr'⟩ := hs.define name (some _) fun v e => by cases e; exact hk
    exact after_follows ⟨hs', hr.trans hr'⟩ keeps_none
  | ret _ value =>
    cases value with
    | none => exact follows_same h (keeps_one (keeps_plain rfl))
    | some e => exact follows_cons h keeps_none rfl keeps_none
  | declare name value =>
    cases value with
    | none => exact after_follows (h.define name none (by simp)) keeps_none
    | some e => exact follows_cons h keeps_none rfl keeps_none

/-- The body of a function runs in a scope inside that of its declaration, which is kept. -/
theorem callFunction_follows (h : w.Sound k) (params : List Token) (body : List Stmt)
    {closure : ScopeId} (hc : (w.scopes.scope closure).captured = true) (args : List Value)
    (hv : ∀ v ∈ args, w.scopes.Keeps v) :
    Follows w (callFunction k w params body closure args) := by
  have hend : w.Sound (.endCall :: k) := h.cons rfl keeps_none
  obtain ⟨hs, hr⟩ := hend.enter closure (.inr hc)
  obtain ⟨hs', hr'⟩ := hs.bind (params.zip args) fun p hp =>
    (hv p.2 (List.of_mem_zip hp).2).mono hr
  simp only [callFunction]
  split
  · rename_i w' he
    rw [he] at hs' hr'
    have hscope : w'.scope = (w.enter closure).scope := hs'.current
    rw [← hscope] at hs'
    exact ⟨⟨⟨hs'.store, hs'.current, hs'.backs, fun g hg v hv => by
      rcases List.mem_cons.mp hg with rfl | hg
      · cases hv
      · exact hs'.waiting g hg v hv⟩, keeps_none⟩, hr.trans hr'⟩
  · rename_i e w' he
    rw [he] at hs' hr'
    have hscope : w'.scope = (w.enter closure).scope := hs'.current
    rw [← hscope] at hs'
    obtain ⟨hl, hr''⟩ := hs'.leave
    exact ⟨⟨hl.uncons rfl, keeps_none⟩, (hr.trans hr').trans hr''⟩

/-! Operators and native functions make no callables. -/

theorem isCallable_apply {op : Kind} {left right v : Value}
    (h : Operator.apply op left right = .ok v) : v.isCallable = false := by
  unfold Operator.apply Operator.add Operator.onNumbers Operator.onBits at h
  split at h <;> (try split at h) <;> (try split at h) <;> first | (cases h; rfl) | cases h

theorem apply_plain {op : Kind} {left right v : Value}
    (h : Operator.apply op left right = .ok v) : v.closure? = none :=
  Value.closure?_of_isCallable (isCallable_apply h)

theorem isCallable_applySign {op : Kind} {operand v : Value}
    (h : Operator.applySign op operand = .ok v) : v.isCallable = false := by
  unfold Operator.applySign Operator.onNumber at h
  split at h <;> (try split at h) <;> first | (cases h; rfl) | cases h

theorem applySign_plain {op : Kind} {operand v : Value}
    (h : Operator.applySign op operand = .ok v) : v.closure? = none :=
  Value.closure?_of_isCallable (isCallable_applySign h)

theorem perform_uncallable (w : World) (args : List Value) (a : Action) :
    ∃ effect w', w.perform args a = (effect, w') ∧ w'.scopes = w.scopes ∧ w'.scope = w.scope ∧
      w'.fresh = w.fresh ∧ ∀ v, effect = .value v → v.isCallable = false := by
  cases a with
  | clock => exact ⟨_, _, rfl, rfl, rfl, rfl, fun v h => by cases h; rfl⟩
  | print | println | exit =>
    simp only [World.perform, World.operate]
    split
    · exact ⟨_, _, rfl, rfl, rfl, rfl, fun v h => by cases h <;> rfl⟩
    · exact ⟨_, _, rfl, rfl, rfl, rfl, fun v h => by cases h⟩
  | read =>
    simp only [World.perform]
    split
    · exact ⟨_, _, rfl, rfl, rfl, rfl, fun v h => by cases h; rfl⟩
    · refine ⟨_, _, rfl, rfl, rfl, rfl, fun v h => ?_⟩
      cases h
      unfold Input.valueOf
      split <;> rfl
    · exact ⟨_, _, rfl, rfl, rfl, rfl, fun v h => by cases h⟩

/-- Native functions leave the scopes alone and make no function. -/
theorem perform_plain (w : World) (args : List Value) (a : Action) :
    ∃ effect w', w.perform args a = (effect, w') ∧ w'.scopes = w.scopes ∧ w'.scope = w.scope ∧
      ∀ v, effect = .value v → v.closure? = none := by
  obtain ⟨effect, w', he, hscopes, hscope, -, hplain⟩ := perform_uncallable w args a
  exact ⟨effect, w', he, hscopes, hscope, fun v hv => Value.closure?_of_isCallable (hplain v hv)⟩

theorem call_follows (h : w.Sound k) (paren : Token) {callee : Value}
    (hc : w.scopes.Keeps callee) (args : List Value) (hv : ∀ v ∈ args, w.scopes.Keeps v) :
    Follows w (call k w paren callee args) := by
  cases callee with
  | nil | bool | number | text => exact follows_same h keeps_none
  | callable identity c =>
    simp only [call]
    split
    · exact follows_same h keeps_none
    · split
      · exact follows_same h keeps_none
      · cases c with
        | function name params body closure =>
          exact callFunction_follows h params body (hc closure rfl) args hv
        | native n =>
          obtain ⟨effect, w', he, h1, h2, h3⟩ := perform_plain w args n.action
          have hs : w'.Sound k :=
            ⟨h1 ▸ h.store, h2 ▸ h.current, h.backs, h1 ▸ h.waiting⟩
          have hr : w.scopes.Retains w'.scopes := h1 ▸ .refl _
          simp only [he]
          cases effect with
          | value v => exact ⟨⟨hs, keeps_one (keeps_plain (h3 v rfl))⟩, hr⟩
          | fault | exit => exact ⟨⟨hs, keeps_none⟩, hr⟩

theorem nextArgument_follows (h : w.Sound k) (paren : Token) {callee : Value}
    (hc : w.scopes.Keeps callee) {done : List Value} (hv : ∀ v ∈ done, w.scopes.Keeps v)
    (args : List Expr) : Follows w (nextArgument k w paren callee done args) := by
  cases args with
  | nil => exact call_follows h paren hc done.reverse fun v hm => hv v (List.mem_reverse.mp hm)
  | cons arg args =>
    exact follows_cons h keeps_none rfl (List.forall_mem_cons.mpr ⟨hc, hv⟩)

theorem mapError_ok {α ε ε' : Type} {r : Except ε α} {f : ε → ε'} {v : α}
    (h : r.mapError f = .ok v) : r = .ok v := by
  cases r with
  | ok u => exact congrArg _ (Except.ok.inj h)
  | error e => cases h

theorem resume_follows {f : Frame} (hf : f.takesValue = true) (h : w.Sound (f :: k)) {v : Value}
    (hv : w.scopes.Keeps v) : Follows w (resume k w v f) := by
  have hk : w.Sound k := h.uncons (by cases f <;> first | rfl | cases hf)
  have hw := h.top
  cases f with
  | assign name => exact after_follows (hk.assign name v hv) (keeps_one hv)
  | left op right => exact follows_cons hk keeps_none rfl (keeps_one hv)
  | right left op => exact ofResult_follows hk _ fun u hu => keeps_plain (apply_plain (mapError_ok hu))
  | decide op right =>
    simp only [resume]
    split
    · exact follows_same hk (keeps_one hv)
    · exact follows_same hk keeps_none
  | sign op => exact ofResult_follows hk _ fun u hu => keeps_plain (applySign_plain (mapError_ok hu))
  | callee paren args => exact nextArgument_follows hk paren hv keeps_none args
  | argument paren callee done args =>
    obtain ⟨h1, h2⟩ := List.forall_mem_cons.mp hw
    exact nextArgument_follows hk paren h1 (List.forall_mem_cons.mpr ⟨hv, h2⟩) args
  | discard => exact follows_same hk keeps_none
  | branch body otherwise =>
    simp only [resume]
    split
    · exact follows_same hk keeps_none
    · cases otherwise with
      | none => exact follows_same hk keeps_none
      | some s => exact follows_same hk keeps_none
  | giveBack => exact follows_same hk (keeps_one hv)
  | declare name =>
    exact after_follows (hk.define name (some v) fun u e => by cases e; exact hv) keeps_none
  | test loop =>
    simp only [resume]
    split
    · exact follows_cons hk keeps_none rfl keeps_none
    · exact follows_same hk keeps_none
  | stepped loop => exact follows_cons hk keeps_none rfl keeps_none
  | round | sequence | leave | endCall => cases hf

theorem proceed_follows {f : Frame} (hf : f.takesValue = false) (h : w.Sound (f :: k)) {fl : Flow}
    (hv : ∀ v ∈ (Control.flow fl).values, w.scopes.Keeps v) : Follows w (proceed k w fl f) := by
  cases f with
  | round loop =>
    have hk : w.Sound k := h.uncons rfl
    cases fl with
    | broke => exact follows_same hk keeps_none
    | returned v => exact follows_same hk hv
    | normal | continued =>
      simp only [proceed]
      split
      · exact follows_cons hk keeps_none rfl keeps_none
      · exact follows_cons hk keeps_none rfl keeps_none
  | sequence rest =>
    have hk : w.Sound k := h.uncons rfl
    cases fl with
    | normal =>
      cases rest with
      | nil => exact follows_same hk keeps_none
      | cons s rest => exact follows_cons hk keeps_none rfl keeps_none
    | broke | continued => exact follows_same hk keeps_none
    | returned v => exact follows_same hk hv
  | leave left back =>
    obtain ⟨hs, hr⟩ := h.leave
    exact ⟨⟨hs, fun v hm => (hv v hm).mono hr⟩, hr⟩
  | endCall =>
    have hk : w.Sound k := h.uncons rfl
    refine ⟨⟨⟨hk.store, hk.current, hk.backs, hk.waiting⟩, keeps_one ?_⟩, .refl _⟩
    cases fl with
    | returned v => exact hv v (by simp [Control.values])
    | normal | broke | continued => exact keeps_plain rfl
  | _ => cases hf

theorem unwind_follows {f : Frame} (h : w.Sound (f :: k)) (e : RuntimeError) :
    Follows w (unwind k w e f) := by
  cases f with
  | leave left back =>
    obtain ⟨hs, hr⟩ := h.leave
    exact ⟨⟨hs, keeps_none⟩, hr⟩
  | endCall =>
    have hk : w.Sound k := h.uncons rfl
    exact ⟨⟨⟨hk.store, hk.current, hk.backs, hk.waiting⟩, keeps_none⟩, .refl _⟩
  | _ => exact follows_same (h.uncons rfl) keeps_none

theorem step_follows {s : State} (hf : s.Fitting) (h : s.Sound) : Follows s.world s.step := by
  obtain ⟨c, k, w⟩ := s
  obtain ⟨hw, hv⟩ := h
  obtain ⟨b, hb, hk⟩ := hf
  cases c with
  | eval e => exact eval_follows hw e
  | exec s => exact exec_follows hw s
  | value v =>
    cases hb
    cases k with
    | nil => exact follows_same hw hv
    | cons f k => exact resume_follows hk.1 hw (hv v (by simp [Control.values]))
  | flow fl =>
    cases hb
    cases k with
    | nil => exact follows_same hw hv
    | cons f k => exact proceed_follows hk.1 hw hv
  | raise e =>
    cases k with
    | nil => exact follows_same hw hv
    | cons f k => exact unwind_follows hw e
  | exit => exact follows_same hw hv

/-! ## Every moment -/

theorem Idle.fitting {s : State} (h : s.Idle) : s.Fitting := by
  have hk := h.frames
  obtain ⟨c, k, w⟩ := s
  cases hk
  cases c with
  | eval | value => exact ⟨true, rfl, trivial⟩
  | exec | flow => exact ⟨false, rfl, trivial⟩
  | raise | exit => exact ⟨true, trivial, trivial⟩

theorem fresh_sound (sink : Sink) (input : Input) (clock : Nat → Float) :
    (fresh sink input clock).Sound :=
  ⟨⟨initial_sound, rfl, trivial, by simp [fresh]⟩, keeps_none⟩

theorem Move.follows {s t : State} (hm : Move s t) (hf : s.Fitting) (h : s.Sound) :
    t.Fitting ∧ Follows s.world t := by
  cases hm with
  | step => exact ⟨step_fitting hf, step_follows hf h⟩
  | exec hi body => exact ⟨⟨false, rfl, trivial⟩, ⟨hi.frames ▸ h.world, keeps_none⟩, .refl _⟩
  | eval hi e => exact ⟨⟨true, rfl, trivial⟩, ⟨hi.frames ▸ h.world, keeps_none⟩, .refl _⟩

theorem Reaches.follows {s t : State} (hr : Reaches s t) (hf : s.Fitting) (h : s.Sound) :
    t.Fitting ∧ Follows s.world t := by
  induction hr with
  | refl => exact ⟨hf, h, .refl _⟩
  | tail _ hm ih =>
    obtain ⟨hf', h', hr'⟩ := ih
    obtain ⟨hf'', h'', hr''⟩ := hm.follows hf' h'
    exact ⟨hf'', h'', hr'.trans hr''⟩

/-- What is promised of the scopes of a state: none that is needed is free, and every walk outward
comes to an end. -/
structure Safe (s : State) : Prop where
  current : s.world.scopes.Live s.world.scope
  functions : ∀ v closure, s.Holds v → v.closure? = some closure →
    (s.world.scopes.scope closure).captured = true ∧ s.world.scopes.Live closure
  captured_around : ∀ id, (s.world.scopes.scope id).captured = true →
    ∃ l, s.world.scopes.Around id l ∧ ∀ j ∈ l, (s.world.scopes.scope j).captured = true
  parent_live : ∀ id parent, s.world.scopes.Live id →
    (s.world.scopes.scope id).parent = some parent → s.world.scopes.Live parent
  rooted : ∀ id, s.world.scopes.Live id →
    ∃ l, s.world.scopes.Around id l ∧ l.getLast? = some .global
  finds : ∀ id name, s.world.scopes.Live id →
    s.world.scopes.Finds name id (s.world.scopes.owner id name)
  captures : ∀ id, s.world.scopes.Live id →
    s.world.scopes.Captures id (s.world.scopes.capture id)

theorem Sound.safe {s : State} (h : s.Sound) : s.Safe where
  current := h.world.scope_live
  functions v closure hv hc := by
    have hk : s.world.scopes.Keeps v := by
      rcases hv with hv | ⟨f, hf, hv⟩ | ⟨id, name, hv⟩
      · exact h.outcome v hv
      · exact h.world.waiting f hf v hv
      · exact h.world.store.bound id name v hv
    exact ⟨hk closure hc, h.world.store.tidy.captured_live closure (hk closure hc)⟩
  captured_around id hc := by
    obtain ⟨l, hl⟩ := h.world.store.tidy.rooted id (h.world.store.tidy.captured_live id hc)
    exact ⟨l, hl, h.world.store.tidy.around_captured hl hc⟩
  parent_live := h.world.store.tidy.parent_live
  rooted id hid := by
    obtain ⟨l, hl⟩ := h.world.store.tidy.rooted id hid
    exact ⟨l, hl, hl.getLast⟩
  finds id name hid := by
    obtain ⟨l, hl⟩ := h.world.store.tidy.rooted id hid
    exact ownerWithin_finds hl name (h.world.store.tidy.around_length hl hid)
  captures id hid := by
    obtain ⟨l, hl⟩ := h.world.store.tidy.rooted id hid
    exact captureWithin_captures hl (h.world.store.tidy.around_length hl hid)

/-- At every moment of every run no function that exists has lost its scope, and a scope that is
kept stays, in its place, for as long as the run goes on. -/
theorem closures_never_dangle (sink : Sink) (input : Input) (clock : Nat → Float)
    {s t : State} (hs : Reaches (fresh sink input clock) s) (ht : Reaches s t) :
    s.Safe ∧ ∀ id, (s.world.scopes.scope id).captured = true →
      (t.world.scopes.scope id).captured = true ∧ t.world.scopes.Live id ∧
        (t.world.scopes.scope id).parent = (s.world.scopes.scope id).parent := by
  obtain ⟨hf, h⟩ := hs.follows (fresh_idle sink input clock).fitting (fresh_sound sink input clock)
  obtain ⟨-, h'⟩ := ht.follows hf h.toSound
  refine ⟨h.toSound.safe, fun id hc => ?_⟩
  obtain ⟨hc', hp⟩ := h'.retains id hc
  exact ⟨hc', h'.world.store.tidy.captured_live id hc', hp⟩

/-- A function declared in a block: the block is left, its scope stays. -/
theorem closures_never_dangle_declared :
    let f : Token := ⟨.name, "f", none, .start⟩
    let start : State := ⟨.exec (.block [.func f [] []]), [], (fresh {} {} fun _ => 0).world⟩
    let declared := start.step.step.step
    let left := declared.step.step
    (declared.world.scopes.scope ⟨1⟩).captured = true ∧ left.world.scope = .global ∧
      declared.Safe ∧ left.world.scopes.Live ⟨1⟩ := by
  intro f start declared left
  have hs : Reaches (fresh {} {} fun _ => 0) declared :=
    (((Relation.ReflTransGen.single (.exec (fresh_idle ..) _)).tail (.step _)).tail (.step _)).tail
      (.step _)
  have ht : Reaches declared left := (Relation.ReflTransGen.single (.step _)).tail (.step _)
  have hc : (declared.world.scopes.scope ⟨1⟩).captured = true := by rfl
  obtain ⟨h1, h2⟩ := closures_never_dangle {} {} (fun _ => 0) hs ht
  exact ⟨hc, by rfl, h1, (h2 ⟨1⟩ hc).2.1⟩

end State

end Script
