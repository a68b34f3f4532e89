import Script.Proofs.BoundValues
import Script.Proofs.LexicalScoping
import Script.Proofs.StepTurns

/-!
# Values are handed on as they are

A step makes a callable only if it executes a declaration, and then one that has the
next number. All other callables were there before. A value that is bound to a name,
or to a parameter, is what the name then stands for, and a value that is returned
stays what it is while scopes and calls are left.
-/

namespace Script

/-- The callable that the next step makes, if it executes a declaration. -/
def State.makes : State → Option Value
  | ⟨.exec (.func name params body), _, w⟩ => some (w.close name params body).1
  | _ => none

/-! ## What a step hands on -/

/-- All values in the world have the property, and callables are numbered from `n` on. -/
structure World.Carries (P : Value → Prop) (n : Nat) (w : World) : Prop where
  bound : w.scopes.AllBound P
  fresh : w.fresh = n

/-- All values in the state have the property, and callables are numbered from `n` on. -/
structure State.Carries (P : Value → Prop) (n : Nat) (s : State) : Prop where
  outcome : ∀ v ∈ s.control.values, P v
  waiting : ∀ f ∈ s.frames, ∀ v ∈ f.values, P v
  world : s.world.Carries P n

variable {P : Value → Prop} {n : Nat}

theorem all_none : ∀ v ∈ ([] : List Value), P v := by simp

theorem all_one {v : Value} (h : P v) : ∀ u ∈ [v], P u := by simpa using h

namespace World.Carries

variable {w : World}

theorem define (h : w.Carries P n) (name : Token) {value : Option Value} (hv : ∀ v ∈ value, P v) :
    (w.define name value).2.Carries P n := by
  have hbound := h.bound.define w.scope name.source hv
  unfold World.define
  split <;> (rename_i he; rw [he] at hbound; exact ⟨hbound, h.fresh⟩)

theorem assign (h : w.Carries P n) (name : Token) {value : Value} (hv : P value) :
    (w.assign name value).2.Carries P n := by
  have hbound := h.bound.assign w.scope name.source hv
  unfold World.assign
  split <;> (rename_i he; rw [he] at hbound; exact ⟨hbound, h.fresh⟩)

theorem lookup (h : w.Carries P n) {name : Token} {v : Value} (hv : w.lookup name = .ok v) :
    P v := by
  unfold World.lookup at hv
  split at hv
  · rename_i u hg
    cases hv
    exact h.bound.get hg
  · cases hv
  · cases hv

theorem bind (h : w.Carries P n) {params : List (Token × Value)} (hv : ∀ p ∈ params, P p.2) :
    (w.bind params).2.Carries P n := by
  induction params generalizing w with
  | nil => exact h
  | cons p rest ih =>
    have hp : ∀ v ∈ some p.2, P v := by
      rintro _ ⟨⟩
      exact hv p (by simp)
    have hd := h.define p.1 hp
    unfold World.bind
    split
    · rename_i w' he
      rw [he] at hd
      exact ih hd fun q hq => hv q (by simp [hq])
    · rename_i e w' he
      rw [he] at hd
      exact hd

theorem enter (h : w.Carries P n) (parent : ScopeId) : (w.enter parent).Carries P n :=
  ⟨h.bound.push parent, h.fresh⟩

theorem leave (h : w.Carries P n) (left back : ScopeId) : (w.leave left back).Carries P n :=
  ⟨h.bound.release left, h.fresh⟩

end World.Carries

namespace State

section
variable (hP : ∀ v, v.isCallable = false → P v) {w : World} {k : List Frame}
  (hk : ∀ f ∈ k, ∀ v ∈ f.values, P v) (hw : w.Carries P n)

include hk hw

theorem carries_same {c : Control} (hc : ∀ v ∈ c.values, P v) :
    Carries P n ⟨c, k, w⟩ := ⟨hc, hk, hw⟩

theorem carries_cons {c : Control} {f : Frame} (hc : ∀ v ∈ c.values, P v)
    (hf : ∀ v ∈ f.values, P v) : Carries P n ⟨c, f :: k, w⟩ :=
  ⟨hc, List.forall_mem_cons.mpr ⟨hf, hk⟩, hw⟩

theorem ofResult_carries {r : Except RuntimeError Value} (hr : ∀ v, r = .ok v → P v) :
    (ofResult k w r).Carries P n := by
  cases r with
  | ok v => exact carries_same hk hw (all_one (hr v rfl))
  | error e => exact carries_same hk hw all_none

omit hw in
theorem after_carries (c : Control) (hc : ∀ v ∈ c.values, P v)
    {r : Except RuntimeError Unit × World} (hr : r.2.Carries P n) : (after k c r).Carries P n := by
  obtain ⟨_ | _, w⟩ := r
  · exact ⟨all_none, hk, hr⟩
  · exact ⟨hc, hk, hr⟩

include hP in
theorem eval_carries (e : Expr) : (eval k w e).Carries P n := by
  cases e with
  | assign | binary | logical | unary | call => exact carries_cons hk hw all_none all_none
  | group => exact carries_same hk hw all_none
  | constant value =>
    exact carries_same hk hw (all_one (hP _ (isCallable_ofConstant value)))
  | reference name => exact ofResult_carries hk hw fun v hv => hw.lookup hv

/-- A declaration makes one callable, and takes one number. -/
theorem func_carries (name : Token) (params : List Token) (body : List Stmt)
    (hm : P (w.close name params body).1) : (exec k w (.func name params body)).Carries P (n + 1) := by
  have hclosed : (w.close name params body).2.Carries P (n + 1) :=
    ⟨hw.bound.capture w.scope, congrArg (· + 1) hw.fresh⟩
  exact after_carries hk (.flow .normal) all_none
    (hclosed.define name (by rintro _ ⟨⟩; exact hm))

include hP in
theorem exec_carries {s : Stmt} (hs : makes ⟨.exec s, k, w⟩ = none) :
    (exec k w s).Carries P n := by
  cases s with
  | block body =>
    refine ⟨all_none, ?_, hw.enter w.scope⟩
    exact List.forall_mem_cons.mpr ⟨all_none, List.forall_mem_cons.mpr ⟨all_none, hk⟩⟩
  | breakLoop | continueLoop => exact carries_same hk hw all_none
  | expr | forLoop | ifThen | ifElse | whileLoop => exact carries_cons hk hw all_none all_none
  | func => cases hs
  | ret _ value =>
    cases value with
    | none => exact carries_same hk hw (all_one (hP .nil rfl))
    | some e => exact carries_cons hk hw all_none all_none
  | declare name value =>
    cases value with
    | none => exact after_carries hk (.flow .normal) all_none (hw.define name (by simp))
    | some e => exact carries_cons hk hw all_none all_none

theorem callFunction_carries (params : List Token) (body : List Stmt) (closure : ScopeId)
    {args : List Value} (hv : ∀ v ∈ args, P v) :
    (callFunction k w params body closure args).Carries P n := by
  have hzip : ∀ p ∈ params.zip args, P p.2 := fun p hp => hv p.2 (List.of_mem_zip hp).2
  have hbound := (hw.enter closure).bind hzip
  simp only [callFunction]
  split
  · rename_i w' he
    rw [he] at hbound
    refine ⟨all_none, ?_, hbound.bound, hbound.fresh⟩
    refine List.forall_mem_cons.mpr ⟨all_none, List.forall_mem_cons.mpr ⟨all_none, ?_⟩⟩
    exact List.forall_mem_cons.mpr ⟨all_none, hk⟩
  · rename_i e w' he
    rw [he] at hbound
    exact ⟨all_none, hk, hbound.leave _ _⟩

include hP in
theorem call_carries (paren : Token) (callee : Value) {args : List Value} (hv : ∀ v ∈ args, P v) :
    (call k w paren callee args).Carries P n := by
  cases callee with
  | nil | bool | number | text => exact carries_same hk hw all_none
  | callable identity c =>
    simp only [call]
    split
    · exact carries_same hk hw all_none
    · split
      · exact carries_same hk hw all_none
      · cases c with
        | function name params body closure =>
          exact callFunction_carries hk hw params body closure hv
        | native f =>
          obtain ⟨effect, w', he, hscopes, -, hfresh, hplain⟩ := perform_uncallable w args f.action
          have hw' : w'.Carries P n := ⟨hscopes ▸ hw.bound, hfresh.trans hw.fresh⟩
          simp only [he]
          cases effect with
          | value v =>
            exact carries_same hk hw' (all_one (hP v (hplain v rfl)))
          | fault | exit => exact carries_same hk hw' all_none

include hP in
theorem nextArgument_carries (paren : Token) {callee : Value} (hc : P callee) {done : List Value}
    (hv : ∀ v ∈ done, P v) (args : List Expr) :
    (nextArgument k w paren callee done args).Carries P n := by
  cases args with
  | nil => exact call_carries hP hk hw paren callee fun v hm => hv v (List.mem_reverse.mp hm)
  | cons arg args => exact carries_cons hk hw all_none (List.forall_mem_cons.mpr ⟨hc, hv⟩)

include hP in
theorem resume_carries {v : Value} (hv : P v) {f : Frame} (hf : ∀ u ∈ f.values, P u) :
    (resume k w v f).Carries P n := by
  have hone : ∀ u ∈ [v], P u := all_one hv
  cases f with
  | assign name => exact after_carries hk (.value v) hone (hw.assign name hv)
  | left op right => exact carries_cons hk hw all_none hone
  | right left op => exact ofResult_carries hk hw fun u hu => hP u (isCallable_apply (mapError_ok hu))
  | decide op right =>
    simp only [resume]
    split
    · exact carries_same hk hw hone
    · exact carries_same hk hw all_none
  | sign op => exact ofResult_carries hk hw fun u hu => hP u (isCallable_applySign (mapError_ok hu))
  | callee paren args => exact nextArgument_carries hP hk hw paren hv all_none args
  | argument paren callee done args =>
    obtain ⟨hc, hdone⟩ := List.forall_mem_cons.mp hf
    exact nextArgument_carries hP hk hw paren hc (List.forall_mem_cons.mpr ⟨hv, hdone⟩) args
  | discard => exact carries_same hk hw all_none
  | branch body otherwise =>
    simp only [resume]
    split
    · exact carries_same hk hw all_none
    · cases otherwise <;> exact carries_same hk hw all_none
  | giveBack => exact carries_same hk hw hone
  | declare name => exact after_carries hk (.flow .normal) all_none (hw.define name (by rintro _ ⟨⟩; exact hv))
  | test loop =>
    simp only [resume]
    split
    · exact carries_cons hk hw all_none all_none
    · exact carries_same hk hw all_none
  | stepped loop => exact carries_cons hk hw all_none all_none
  | round | sequence | leave | endCall => exact carries_same hk hw hone

include hP in
theorem proceed_carries {f : Flow} (hf : ∀ v ∈ (Control.flow f).values, P v) (frame : Frame) :
    (proceed k w f frame).Carries P n := by
  cases frame with
  | round loop =>
    cases f with
    | broke => exact carries_same hk hw all_none
    | returned v => exact carries_same hk hw hf
    | normal | continued =>
      simp only [proceed]
      split
      · exact carries_cons hk hw all_none all_none
      · exact carries_cons hk hw all_none all_none
  | sequence rest =>
    cases f with
    | normal =>
      cases rest with
      | nil => exact carries_same hk hw hf
      | cons s rest => exact carries_cons hk hw all_none all_none
    | broke | continued | returned => exact carries_same hk hw hf
  | leave left back => exact carries_same hk (hw.leave left back) hf
  | endCall =>
    refine ⟨?_, hk, hw.bound, hw.fresh⟩
    cases f with
    | returned v => exact hf
    | normal | broke | continued => exact all_one (hP .nil rfl)
  | _ => exact carries_same hk hw hf

theorem unwind_carries (e : RuntimeError) (frame : Frame) :
    (unwind k w e frame).Carries P n := by
  cases frame with
  | leave left back => exact carries_same hk (hw.leave left back) all_none
  | endCall => exact ⟨all_none, hk, hw.bound, hw.fresh⟩
  | _ => exact carries_same hk hw all_none

end

theorem step_carries (hP : ∀ v, v.isCallable = false → P v) {s : State} (h : s.Carries P n)
    (hm : ∀ v, s.makes = some v → P v) :
    s.step.Carries P (if s.makes.isSome then n + 1 else n) := by
  obtain ⟨c, k, w⟩ := s
  obtain ⟨hc, hk, hw⟩ := h
  cases c with
  | eval e => exact eval_carries hP hk hw e
  | exec s =>
    cases hs : makes ⟨.exec s, k, w⟩ with
    | none => exact exec_carries hP hk hw hs
    | some v =>
      cases s with
      | func name params body => exact func_carries hk hw name params body (hm _ rfl)
      | _ => cases hs
  | value v =>
    cases k with
    | nil => exact ⟨hc, hk, hw⟩
    | cons f k =>
      obtain ⟨hf, hk⟩ := List.forall_mem_cons.mp hk
      exact resume_carries hP hk hw (hc v (by simp [Control.values])) hf
  | flow f =>
    cases k with
    | nil => exact ⟨hc, hk, hw⟩
    | cons frame k => exact proceed_carries hP (List.forall_mem_cons.mp hk).2 hw hc frame
  | raise e =>
    cases k with
    | nil => exact ⟨hc, hk, hw⟩
    | cons frame k => exact unwind_carries (List.forall_mem_cons.mp hk).2 hw e frame
  | exit => exact ⟨hc, hk, hw⟩

theorem carries_iff {s : State} :
    s.Carries P n ↔ (∀ v, s.Holds v → P v) ∧ s.world.fresh = n := by
  constructor
  · rintro ⟨hc, hk, hw⟩
    refine ⟨?_, hw.fresh⟩
    rintro v (hv | ⟨f, hf, hv⟩ | ⟨id, name, hv⟩)
    · exact hc v hv
    · exact hk f hf v hv
    · exact hw.bound id name v hv
  · rintro ⟨h, hn⟩
    exact ⟨fun v hv => h v (.inl hv), fun f hf v hv => h v (.inr (.inl ⟨f, hf, hv⟩)),
      fun id name v hv => h v (.inr (.inr ⟨id, name, hv⟩)), hn⟩

/-- A callable that exists after a step was there before, or the step made it. -/
theorem step_holds {s : State} {v : Value} (hv : v.isCallable = true) (h : s.step.Holds v) :
    s.Holds v ∨ s.makes = some v := by
  have hcarries := step_carries (P := fun u => u.isCallable = true → s.Holds u ∨ s.makes = some u)
    (fun u hu hu' => by rw [hu] at hu'; cases hu')
    (carries_iff.mpr ⟨fun u hu _ => .inl hu, rfl⟩) (fun u hu _ => .inr hu)
  exact (carries_iff.mp hcarries).1 v h hv

theorem step_fresh (s : State) :
    s.step.world.fresh = if s.makes.isSome then s.world.fresh + 1 else s.world.fresh :=
  (carries_iff.mp (step_carries (P := fun _ => True) (fun _ _ => trivial)
    (carries_iff.mpr ⟨fun _ _ => trivial, rfl⟩) (fun _ _ => trivial))).2

/-! ## What is stored and what is returned -/

/-- The names that the next step gives a value, and their values: an assignment, a declaration, or
the parameters of a function that is called. -/
def stores : State → List (Token × Value)
  | ⟨.value v, .assign name :: _, _⟩ => [(name, v)]
  | ⟨.value v, .declare name :: _, _⟩ => [(name, v)]
  | ⟨.value v, .argument _ (.callable _ (.function _ params _ _)) done [] :: _, _⟩ =>
    params.zip (v :: done).reverse
  | ⟨.exec (.func name params body), _, w⟩ => [(name, (w.close name params body).1)]
  | _ => []

end State

namespace World

variable {w : World}

theorem lookup_of_binding {name : Token} {v : Value}
    (h : w.scopes.binding w.scope name.source = some (some v)) : w.lookup name = .ok v := by
  have hsome : (w.scopes.binding w.scope name.source).isSome = true := by rw [h]; rfl
  have hhas : w.scope.slot < w.scopes.slots.size := Scopes.has_of_binding hsome
  obtain ⟨n, hn⟩ : ∃ n, w.scopes.slots.size = n + 1 := ⟨w.scopes.slots.size - 1, by omega⟩
  have howner : w.scopes.owner w.scope name.source = some w.scope := by
    rw [Scopes.owner, hn, Scopes.ownerWithin]
    exact if_pos hsome
  rw [lookup, Scopes.get_eq, howner]
  simp only [h]

theorem assign_found {name : Token} {v : Value} {w' : World}
    (h : w.assign name v = (.ok (), w')) : w'.lookup name = .ok v := by
  cases ho : w.scopes.owner w.scope name.source with
  | none =>
    rw [assign, Scopes.assign_unbound ho] at h
    cases h
  | some owner =>
    have htrue := (Scopes.assign_binds ho v).1
    have hget := Scopes.assign_get ho v w.scope name.source
    unfold assign at h
    split at h
    · rename_i scopes he
      cases h
      rw [he] at hget
      simp only [and_self, if_true] at hget
      simp only [lookup, hget]
    · rename_i scopes he
      rw [he] at htrue
      cases htrue

theorem define_scopes (w : World) (name : Token) (value : Option Value) :
    (w.define name value).2 =
      { w with scopes := (w.scopes.define w.scope name.source value).2 } := by
  unfold define
  split <;> simp [*]

/-- A name that could be bound is bound to the value. -/
theorem define_found (hid : w.scopes.Has w.scope) {name : Token} {v : Value} {w' : World}
    (h : w.define name (some v) = (.ok (), w')) :
    w'.scopes.binding w'.scope name.source = some (some v) := by
  have hw' := w.define_scopes name (some v)
  rw [h] at hw'
  cases hb : w.scopes.binding w.scope name.source with
  | some old =>
    rw [define, Scopes.define_bound (by rw [hb]; rfl)] at h
    cases h
  | none =>
    obtain ⟨-, hbinds⟩ := Scopes.define_binds hid hb (some v)
    simp only at hw'
    subst hw'
    simp [hbinds.binding]

theorem define_keeps (hid : w.scopes.Has w.scope) (name : Token) (value : Option Value)
    {id : ScopeId} {m : String} {x : Option Value} (h : w.scopes.binding id m = some x) :
    (w.define name value).2.scopes.binding id m = some x := by
  rw [define_scopes]
  cases hb : w.scopes.binding w.scope name.source with
  | some old =>
    have hsome : (w.scopes.binding w.scope name.source).isSome = true := by rw [hb]; rfl
    simpa [Scopes.define_bound hsome value] using h
  | none =>
    obtain ⟨-, hbinds⟩ := Scopes.define_binds hid hb value
    rw [hbinds.binding, if_neg]
    · exact h
    · rintro ⟨rfl, rfl⟩
      rw [hb] at h
      cases h

theorem define_has (hid : w.scopes.Has w.scope) (name : Token) (value : Option Value) :
    (w.define name value).2.scopes.Has (w.define name value).2.scope := by
  rw [scope_define]
  exact (w.rebound_define name value).has_iff.mpr hid

theorem bind_keeps (hid : w.scopes.Has w.scope) (params : List (Token × Value)) {id : ScopeId}
    {m : String} {x : Option Value} (h : w.scopes.binding id m = some x) :
    (w.bind params).2.scopes.binding id m = some x := by
  induction params generalizing w with
  | nil => exact h
  | cons p rest ih =>
    have hkept := define_keeps hid p.1 (some p.2) h
    have hhas := define_has hid p.1 (some p.2)
    unfold bind
    split
    · rename_i w' he
      rw [he] at hkept hhas
      exact ih hhas hkept
    · rename_i e w' he
      rw [he] at hkept
      exact hkept

/-- Parameters that could be bound are bound to the arguments. -/
theorem bind_found (hid : w.scopes.Has w.scope) {params : List (Token × Value)} {w' : World}
    (h : w.bind params = (.ok (), w')) :
    ∀ p ∈ params, w'.scopes.binding w'.scope p.1.source = some (some p.2) := by
  induction params generalizing w with
  | nil => simp
  | cons p rest ih =>
    have hhas := define_has hid p.1 (some p.2)
    unfold bind at h
    split at h
    · rename_i w₁ he
      rw [he] at hhas
      have hscope := (w₁.rebound_bind rest).2
      have hkept := bind_keeps hhas rest (define_found hid he)
      rw [h] at hscope hkept
      refine List.forall_mem_cons.mpr ⟨?_, ih hhas h⟩
      rw [hscope]
      exact hkept
    · cases h

end World

namespace State

theorem after_found {k : List Frame} {c : Control} {r : Except RuntimeError Unit × World}
    {p : Token × Value} (h : ∀ w, r = (.ok (), w) → w.lookup p.1 = .ok p.2) :
    (∃ e, (after k c r).control = .raise e) ∨
      ∀ q ∈ [p], (after k c r).world.lookup q.1 = .ok q.2 := by
  obtain ⟨e | _, w⟩ := r
  · exact .inl ⟨e, rfl⟩
  · exact .inr (List.forall_mem_singleton.mpr (h w rfl))

theorem callFunction_found {k : List Frame} {w : World} {params : List Token} (body : List Stmt)
    {closure : ScopeId} (hid : (w.enter closure).scopes.Has (w.enter closure).scope)
    (args : List Value) :
    (∃ e, (callFunction k w params body closure args).control = .raise e) ∨
      ∀ p ∈ params.zip args,
        (callFunction k w params body closure args).world.lookup p.1 = .ok p.2 := by
  simp only [callFunction]
  split
  · rename_i w' he
    exact .inr fun p hp => World.lookup_of_binding (w := w') (World.bind_found hid he p hp)
  · rename_i e w' he
    exact .inl ⟨e, rfl⟩

/-- Unless there is an error, a name that is given a value then stands for that value. -/
theorem step_stores {s : State} (h : s.Sound) : (∃ e, s.step.control = .raise e) ∨
    ∀ p ∈ s.stores, s.step.world.lookup p.1 = .ok p.2 := by
  obtain ⟨c, k, w⟩ := s
  have hhas : w.scopes.Has w.scope := h.world.scope_live.1
  have hnone : ∀ {t : State}, ∀ p ∈ ([] : List (Token × Value)), t.world.lookup p.1 = .ok p.2 := by
    simp
  cases c with
  | exec stmt =>
    cases stmt with
    | func name params body =>
      have hclosed : (w.close name params body).2.scopes.Has (w.close name params body).2.scope :=
        (Scopes.captureWithin_shape _ w.scopes w.scope).has_iff.mpr hhas
      exact after_found fun w' he => World.lookup_of_binding (World.define_found hclosed he)
    | _ => exact .inr hnone
  | value v =>
    cases k with
    | nil => exact .inr hnone
    | cons f k =>
      cases f with
      | assign name => exact after_found fun w' he => World.assign_found he
      | declare name =>
        exact after_found fun w' he => World.lookup_of_binding (World.define_found hhas he)
      | argument paren callee done args =>
        cases args with
        | cons => cases callee with
          | callable i c => cases c <;> exact .inr hnone
          | _ => exact .inr hnone
        | nil =>
          cases callee with
          | callable i c =>
            cases c with
            | native => exact .inr hnone
            | function name params body closure =>
              have hpush := Scopes.push_pushed w.scopes closure h.world.store.tidy.spare_inside
              simp only [step, resume, nextArgument, call]
              split
              · exact .inl ⟨_, rfl⟩
              · split
                · exact .inl ⟨_, rfl⟩
                · exact callFunction_found body hpush.inside _
          | _ => exact .inr hnone
      | _ => exact .inr hnone
  | _ => exact .inr hnone

/-- A value that is on its way back stays what it is. -/
theorem step_returned {s : State} {v : Value} (h : s.control = .flow (.returned v))
    (hk : s.frames ≠ []) : s.step.control.values = [v] := by
  obtain ⟨c, k, w⟩ := s
  cases h
  cases k with
  | nil => exact absurd rfl hk
  | cons f k => cases f <;> rfl

end State

end Script
