import Script.Proofs.LiteralsValued
import Script.Proofs.ProperTrees

/-!
# Branches that no program reaches

The machine has branches for trees that the parser never makes: an operator that it does not know,
two parameters of one name, a loop left from outside of it. When a session is watched while it answers
requests, none of the states that it goes through is on such a branch, whatever the requests are and
whatever comes of them.
-/

namespace Script

/-! ## Watching -/

/-- A run that is watched: what it came to, if it has ended, and the states that it went through. -/
structure Watched (α : Type) where
  result : Option α
  seen : List State

namespace Watched

variable {α β : Type}

instance : Monad Watched where
  pure a := ⟨some a, []⟩
  bind x f :=
    match x.result with
    | none => ⟨none, x.seen⟩
    | some a => ⟨(f a).result, x.seen ++ (f a).seen⟩

theorem bind_none {x : Watched α} {f : α → Watched β} (h : x.result = none) :
    x >>= f = ⟨none, x.seen⟩ := by
  show (match x.result with | none => _ | some a => _) = _
  rw [h]

theorem bind_some {x : Watched α} {f : α → Watched β} {a : α} (h : x.result = some a) :
    x >>= f = ⟨(f a).result, x.seen ++ (f a).seen⟩ := by
  show (match x.result with | none => _ | some a => _) = _
  rw [h]

instance : LawfulMonad Watched := LawfulMonad.mk' Watched
  (fun x => by
    show x >>= (fun a => pure (id a)) = x
    obtain ⟨_ | a, seen⟩ := x
    · exact bind_none rfl
    · rw [bind_some rfl]
      simp [pure])
  (fun a f => bind_some rfl)
  (fun x f g => by
    obtain ⟨_ | a, seen⟩ := x
    · rw [bind_none rfl, bind_none rfl, bind_none rfl]
    · rw [bind_some (f := f) rfl, bind_some (f := fun a => f a >>= g) rfl]
      cases h : (f a).result with
      | none => rw [bind_none h, bind_none rfl]
      | some b => rw [bind_some h, bind_some rfl, List.append_assoc])

/-! What is watched comes to what it comes to unwatched. -/

theorem result_bind (x : Watched α) (f : α → Watched β) :
    (x >>= f).result = x.result.bind fun a => (f a).result := by
  cases h : x.result with
  | none => rw [bind_none h, Option.bind_none]
  | some a => rw [bind_some h, Option.bind_some]

theorem result_map (f : α → β) (x : Watched α) : (f <$> x).result = x.result.map f := by
  rw [← bind_pure_comp, result_bind]
  cases x.result <;> rfl

/-- All states that were seen are `P`, and what a run came to is `Q`. -/
def Keeps (P : State → Prop) (Q : α → Prop) (x : Watched α) : Prop :=
  (∀ s ∈ x.seen, P s) ∧ ∀ a, x.result = some a → Q a

section
variable {P : State → Prop} {Q : α → Prop} {R : β → Prop}

theorem keeps_pure {a : α} (h : Q a) : Keeps P Q (pure a) :=
  ⟨fun _ hs => (List.not_mem_nil hs).elim, fun _ he => Option.some.inj he ▸ h⟩

theorem Keeps.bind {x : Watched α} {f : α → Watched β} (hx : x.Keeps P Q)
    (hf : ∀ a, Q a → (f a).Keeps P R) : (x >>= f).Keeps P R := by
  cases h : x.result with
  | none =>
    rw [bind_none h]
    exact ⟨hx.1, fun _ he => nomatch he⟩
  | some a =>
    obtain ⟨hseen, hresult⟩ := hf a (hx.2 a h)
    rw [bind_some h]
    refine ⟨fun s hs => ?_, hresult⟩
    rcases List.mem_append.mp hs with hs | hs
    · exact hx.1 s hs
    · exact hseen s hs

theorem Keeps.map {x : Watched α} {f : α → β} (hx : x.Keeps P fun a => R (f a)) :
    (f <$> x).Keeps P R := by
  rw [← bind_pure_comp]
  exact hx.bind fun a ha => keeps_pure ha

end

end Watched

/-- Runs for at most `n` steps, and notes every state on the way. -/
def State.watch : Nat → Runner Watched
  | 0, s => ⟨none, [s]⟩
  | n + 1, s =>
    match s.outcome? with
    | some o => ⟨some (o, s.world), [s]⟩
    | none => ⟨(watch n s.step).result, s :: (watch n s.step).seen⟩

namespace State

theorem watch_result (n : Nat) (s : State) : (watch n s).result = run n s := by
  induction n generalizing s with
  | zero => rfl
  | succ n ih =>
    simp only [watch, run]
    cases s.outcome? with
    | some o => rfl
    | none => exact ih s.step

theorem watch_proper {n : Nat} {s : State} (h : s.Meets .proper) :
    (watch n s).Keeps (State.Meets .proper) fun r => r.2.scopes.Meets .proper := by
  induction n generalizing s with
  | zero => exact ⟨by simpa [watch] using h, fun _ he => nomatch he⟩
  | succ n ih =>
    simp only [watch]
    cases s.outcome? with
    | some o =>
      refine ⟨by simpa using h, fun r he => ?_⟩
      cases he
      exact h.bound
    | none =>
      obtain ⟨hseen, hresult⟩ := ih (step_meets h)
      exact ⟨List.forall_mem_cons.mpr ⟨h, hseen⟩, hresult⟩

end State

namespace World

variable {w : World} {n : Nat}

theorem execute_watch (body : List Stmt) :
    (execute (State.watch n) body w).result = execute (State.run n) body w := by
  induction body generalizing w with
  | nil => rfl
  | cons s rest ih =>
    simp only [execute, Watched.result_bind, State.watch_result]
    congr 1
    funext r
    obtain ⟨o, w'⟩ := r
    cases o with
    | value v => exact ih
    | flow f =>
      cases f with
      | returned v => rfl
      | normal | broke | continued => exact ih
    | error | exit => rfl

theorem evaluate_watch (e : Expr) :
    (evaluate (State.watch n) e w).result = evaluate (State.run n) e w := by
  simp only [evaluate, Watched.result_bind, State.watch_result]
  congr 1
  funext r
  obtain ⟨o, w'⟩ := r
  cases o <;> rfl

theorem execute_proper {body : List Stmt} (hbody : ∀ s ∈ body, s.Meets .proper false false)
    (hw : w.scopes.Meets .proper) :
    (execute (State.watch n) body w).Keeps (State.Meets .proper)
      fun r => r.2.scopes.Meets .proper := by
  induction body generalizing w with
  | nil => exact Watched.keeps_pure hw
  | cons s rest ih =>
    obtain ⟨hs, hrest⟩ := List.forall_mem_cons.mp hbody
    have hstart : (⟨.exec s, [], w⟩ : State).Meets .proper := ⟨hs, trivial, hw⟩
    refine (State.watch_proper hstart).bind fun r hr => ?_
    obtain ⟨o, w'⟩ := r
    cases o with
    | value v => exact ih hrest hr
    | flow f =>
      cases f with
      | returned v => exact Watched.keeps_pure hr
      | normal | broke | continued => exact ih hrest hr
    | error | exit => exact Watched.keeps_pure hr

theorem evaluate_proper {e : Expr} (he : e.Meets .proper) (hw : w.scopes.Meets .proper) :
    (evaluate (State.watch n) e w).Keeps (State.Meets .proper)
      fun r => r.2.scopes.Meets .proper := by
  have hstart : (⟨.eval e, [], w⟩ : State).Meets .proper := ⟨he, trivial, hw⟩
  refine (State.watch_proper hstart).bind fun r hr => ?_
  obtain ⟨o, w'⟩ := r
  cases o <;> exact Watched.keeps_pure hr

end World

/-! ## Sessions -/

namespace Session

variable {s : Session} {n : Nat} {α : Type}

theorem display_scopes (texts : List String) (w : World) :
    (display texts w).2.scopes = w.scopes := rfl

theorem announce_watch {outlines : List String} {go : World → Watched (Ending α × World)}
    {go' : World → Option (Ending α × World)} (h : ∀ w, (go w).result = go' w) :
    (s.announce outlines go).result = s.announce outlines go' := by
  unfold announce
  split
  · rfl
  · rw [Watched.result_bind, h]
    rfl

theorem announce_proper {outlines : List String} {go : World → Watched (Ending α × World)}
    (hgo : ∀ w, w.scopes.Meets .proper →
      (go w).Keeps (State.Meets .proper) fun r => r.2.scopes.Meets .proper)
    (hs : s.world.scopes.Meets .proper) :
    (s.announce outlines go).Keeps (State.Meets .proper)
      fun r => r.2.world.scopes.Meets .proper := by
  have hdisplay := display_scopes (if s.debug then outlines else []) s.world
  unfold announce
  split
  · rename_i e w h
    rw [h] at hdisplay
    exact Watched.keeps_pure (hdisplay ▸ hs)
  · rename_i w h
    rw [h] at hdisplay
    exact (hgo w (hdisplay ▸ hs)).bind fun r hr => Watched.keeps_pure hr

theorem obey_watch (x : Examined Line) :
    (s.obey (State.watch n) x).result = s.obey (State.run n) x := by
  obtain ⟨tree, _ | ⟨d, ds⟩⟩ := x
  · cases tree with
    | statements body =>
      refine (Watched.result_map _ _).trans (congrArg (Option.map _) ?_)
      exact announce_watch fun w => World.execute_watch body
    | expression e =>
      refine (Watched.result_map _ _).trans (congrArg (Option.map _) ?_)
      exact announce_watch fun w => World.evaluate_watch e
  · rfl

theorem obey_proper {x : Examined Line} (hx : x.found = [] → x.tree.Proper)
    (hs : s.world.scopes.Meets .proper) :
    (s.obey (State.watch n) x).Keeps (State.Meets .proper)
      fun r => r.2.world.scopes.Meets .proper := by
  obtain ⟨tree, _ | ⟨d, ds⟩⟩ := x
  · have htree := hx rfl
    cases tree with
    | statements body =>
      exact Watched.Keeps.map (announce_proper (fun w => World.execute_proper htree) hs)
    | expression e =>
      exact Watched.Keeps.map (announce_proper (fun w => World.evaluate_proper htree) hs)
  · exact Watched.keeps_pure hs

theorem converse_watch (rs : List Request) :
    (s.converse (serve (State.watch n)) rs).result = s.converse (serve (State.run n)) rs := by
  induction rs generalizing s with
  | nil => rfl
  | cons r rs ih =>
    simp only [converse, Watched.result_bind, serve_eq, obey_watch]
    congr 1
    funext p
    obtain ⟨reply, s'⟩ := p
    cases reply with
    | exited => rfl
    | ok | failed => exact (Watched.result_map _ _).trans (congrArg (Option.map _) ih)

theorem converse_proper (rs : List Request) (hs : s.world.scopes.Meets .proper) :
    (s.converse (serve (State.watch n)) rs).Keeps (State.Meets .proper) fun _ => True := by
  induction rs generalizing s with
  | nil => exact Watched.keeps_pure trivial
  | cons r rs ih =>
    simp only [converse, serve_eq]
    refine (obey_proper Request.proper hs).bind fun p hp => ?_
    obtain ⟨reply, s'⟩ := p
    cases reply with
    | exited => exact Watched.keeps_pure trivial
    | ok | failed => exact Watched.Keeps.map (ih hp)

end Session

/-! ## Parameters that are bound -/

namespace Scopes

/-- A scope that was just pushed binds nothing, whichever slot it is in. -/
theorem bindings_push (s : Scopes) (parent : ScopeId) :
    ((s.push parent).2.scope (s.push parent).1).bindings = [] := by
  unfold push
  cases s.spare with
  | nil => simp [scope_eq]
  | cons id spare =>
    show ((s.modify id fun _ => { parent := some parent }).scope id).bindings = []
    by_cases hin : id.slot < s.slots.size
    · rw [scope_modify_self _ hin]
    · rw [scope_out (by rw [size_modify]; omega)]

end Scopes

namespace World

variable {w : World}

/-- Parameters with different names that a scope does not bind yet can all be bound in it. -/
theorem bind_distinct {params : List Token} (hd : (params.map Token.source).Nodup)
    (hfree : ∀ p ∈ params, (w.scopes.scope w.scope).bindings.lookup p.source = none)
    (args : List Value) : (bind (params.zip args) w).1 = .ok () := by
  induction params generalizing w args with
  | nil => rfl
  | cons param params ih =>
    cases args with
    | nil => rfl
    | cons arg args =>
      obtain ⟨hnew, hd⟩ := List.nodup_cons.mp hd
      have hnone := hfree param (by simp)
      simp only [List.zip_cons_cons, bind, define, Scopes.define, hnone, Option.isSome_none]
      refine ih hd ?_ args
      intro p hp
      have hne : (p.source == param.source) = false := by
        simp only [beq_eq_false_iff_ne, ne_eq]
        intro e
        exact hnew (e ▸ List.mem_map_of_mem hp)
      show List.lookup p.source ((w.scopes.modify w.scope _).scope w.scope).bindings = none
      by_cases hin : w.scope.slot < w.scopes.slots.size
      · rw [Scopes.scope_modify_self _ hin]
        simp only [List.lookup_cons, hne]
        exact hfree p (by simp [hp])
      · rw [Scopes.scope_out (by rw [Scopes.size_modify]; omega)]
        rfl

/-- Binding the parameters of a call never fails. -/
theorem bind_enter (closure : ScopeId) {params : List Token}
    (hd : (params.map Token.source).Nodup) (args : List Value) :
    (bind (params.zip args) (w.enter closure)).1 = .ok () := by
  refine bind_distinct hd (fun p _ => ?_) args
  have hempty : ((w.enter closure).scopes.scope (w.enter closure).scope).bindings = [] :=
    Scopes.bindings_push w.scopes closure
  rw [hempty]
  rfl

end World

/-! ## Faults that do not happen -/

/-- A state on no branch that is there for improper trees only. -/
structure State.Faultless (s : State) : Prop where
  fault : ∀ e, s.control = .raise e → e.fault ≠ .unknownOperator ∧ e.fault ≠ .unknownSign
  binds : ∀ identity name params body closure,
    s.Holds (.callable identity (.function name params body closure)) →
      ∀ args, (World.bind (params.zip args) (s.world.enter closure)).1 = .ok ()
  finishes : ∀ f, s.control = .flow f → s.frames = [] ∨ (∃ k, s.frames = .endCall :: k) →
    f ≠ .broke ∧ f ≠ .continued
  logical : ∀ left op right, s.control = .eval (.logical left op right) →
    op.kind = .andAnd ∨ op.kind = .orOr

theorem State.Meets.faultless {s : State} (h : s.Meets .proper) : s.Faultless where
  fault e he := by
    have hc := h.control
    rw [he] at hc
    exact hc
  binds identity name params body closure hv args := World.bind_enter closure (h.held hv).1 args
  finishes f hf hk := by
    have hc := h.control
    have hloop : Frame.inLoop s.frames = false := by
      rcases hk with hk | ⟨k, hk⟩ <;> rw [hk] <;> rfl
    rw [hf, hloop] at hc
    constructor <;> rintro rfl <;> cases hc
  logical left op right he := by
    have hc := h.control
    rw [he] at hc
    cases hc with
    | logical hop => exact Kind.isLogical_iff.mp hop

/-- The objections to the text of a request. -/
def Request.objections : Request → List Objection
  | .program source => (parseProgram (Scanned.ofText source).tokens).objections
  | .line source => (parseLine (Scanned.ofText source).tokens).objections

/-- Watching a session answer requests shows the answers that it gives, and no state on a branch
that is there for improper trees only; nor is any text objected to for a literal without a value. -/
theorem Session.conversation_faultless (sink : Sink) (input : Input) (clock : Nat → Float)
    (debug : Bool) (rs : List Request) (n : Nat) :
    let s : Session := ⟨{ sink, input, clock }, debug⟩
    (s.converse (serve (State.watch n)) rs).result = s.converse (serve (State.run n)) rs ∧
      (∀ t ∈ (s.converse (serve (State.watch n)) rs).seen, t.Faultless) ∧
      ∀ r ∈ rs, ∀ o ∈ r.objections, o.complaint ≠ .literalWithoutValue := by
  intro s
  have hfresh : s.world.scopes.Meets .proper := Scopes.initial_meets
  refine ⟨converse_watch rs, fun t ht => ?_, fun r _ => ?_⟩
  · exact ((converse_proper rs hfresh).1 t ht).faultless
  · cases r with
    | program source => exact parseProgram_valued source
    | line source => exact parseLine_valued source

theorem Session.conversation_faultless_logical :
    0 < (({} : Session).converse (serve (State.watch 9)) [.line "nil && x"]).seen.length ∧
      ∀ t ∈ (({} : Session).converse (serve (State.watch 9)) [.line "nil && x"]).seen, t.Faultless :=
  ⟨by decide +kernel, (conversation_faultless {} {} (fun _ => 0) false [.line "nil && x"] 9).2.1⟩

end Script
