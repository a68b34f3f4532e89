import Script.Proofs.StepTurns

/-!
# Scopes with other bindings

A veil gives some scopes other bindings and leaves all else as it is. A step does not see it if it
starts in a scope without one, if no scope with one is around a scope without one, and if the frames
leave none that has one: what is looked up, bound, opened, kept and left is then the same, and the
veil is as it was.
-/

namespace Script

/-- Other bindings for some scopes. -/
abbrev Veil := ScopeId → Option Bindings

def Scope.veil (b : Option Bindings) (scope : Scope) : Scope :=
  { scope with bindings := b.getD scope.bindings }

namespace Scopes

variable {β : Veil} {s s' : Scopes} {id : ScopeId}

def veil (β : Veil) (s : Scopes) : Scopes :=
  { s with slots := s.slots.mapIdx fun i scope => scope.veil (β ⟨i⟩) }

theorem size_veil (β : Veil) (s : Scopes) : (s.veil β).slots.size = s.slots.size :=
  Array.size_mapIdx

theorem scope_veil (h : id.slot < s.slots.size) :
    (s.veil β).scope id = (s.scope id).veil (β id) := by
  rw [scope_eq, scope_eq, veil, Array.getElem?_mapIdx, Array.getElem?_eq_getElem h]
  rfl

theorem scope_veil_none (h : β id = none) : (s.veil β).scope id = s.scope id := by
  rcases Nat.lt_or_ge id.slot s.slots.size with hid | hid
  · rw [scope_veil hid, h]
    rfl
  · rw [scope_out hid, scope_out (by rwa [size_veil])]

/-- A part of a scope other than its bindings is not changed by a veil. -/
theorem scope_veil_part {γ : Type} (part : Scope → γ)
    (hpart : ∀ b scope, part (Scope.veil b scope) = part scope) (β : Veil) (s : Scopes)
    (id : ScopeId) : part ((s.veil β).scope id) = part (s.scope id) := by
  rcases Nat.lt_or_ge id.slot s.slots.size with hid | hid
  · rw [scope_veil hid, hpart]
  · rw [scope_out hid, scope_out (by rwa [size_veil])]

theorem parent_veil (β : Veil) (s : Scopes) (id : ScopeId) :
    ((s.veil β).scope id).parent = (s.scope id).parent :=
  scope_veil_part Scope.parent (fun _ _ => rfl) β s id

theorem captured_veil (β : Veil) (s : Scopes) (id : ScopeId) :
    ((s.veil β).scope id).captured = (s.scope id).captured :=
  scope_veil_part Scope.captured (fun _ _ => rfl) β s id

/-- A change to a scope that goes with its veil. -/
theorem modify_veil {f : Scope → Scope}
    (hf : ∀ scope, f (Scope.veil (β id) scope) = (f scope).veil (β id)) :
    (s.veil β).modify id f = (s.modify id f).veil β := by
  have hslots : (s.slots.mapIdx fun i scope => scope.veil (β ⟨i⟩)).modify id.slot f =
      (s.slots.modify id.slot f).mapIdx fun i scope => scope.veil (β ⟨i⟩) := by
    refine Array.ext (by simp) fun i hi _ => ?_
    simp only [Array.getElem_modify, Array.getElem_mapIdx]
    split
    · rename_i e
      subst e
      exact hf _
    · rfl
  simp only [modify, veil, hslots]

/-! ## What each operation does under a veil -/

theorem push_veil (parent : ScopeId) (h : β (s.push parent).1 = none) :
    (s.veil β).push parent = ((s.push parent).1, (s.push parent).2.veil β) := by
  unfold push at h ⊢
  have hspare : (s.veil β).spare = s.spare := rfl
  rw [hspare]
  cases hs : s.spare with
  | cons id spare =>
    rw [hs] at h
    have hid : β id = none := h
    have hmodify : (s.veil β).modify id (fun _ => { parent := some parent }) =
        (s.modify id fun _ => { parent := some parent }).veil β :=
      modify_veil (by simp [hid, Scope.veil])
    simp only [hmodify]
    rfl
  | nil =>
    rw [hs] at h
    have hid : β ⟨s.slots.size⟩ = none := h
    rw [size_veil]
    simp only [veil, Array.mapIdx_push, hid]
    rfl

theorem release_veil (h : β id = none) : (s.veil β).release id = (s.release id).veil β := by
  have hmodify : (s.veil β).modify id (fun scope => { scope with bindings := [], free := true }) =
      (s.modify id fun scope => { scope with bindings := [], free := true }).veil β :=
    modify_veil (by simp [h, Scope.veil])
  have hrecycles : (s.veil β).recycles = s.recycles := rfl
  simp only [release, scope_veil_none h, hrecycles, hmodify]
  split <;> rfl

/-- Keeping a scope changes no bindings, so it does not matter which scopes have a veil. -/
theorem captureWithin_veil (n : Nat) : ∀ (s : Scopes) (id : ScopeId),
    captureWithin n (s.veil β) id = (captureWithin n s id).veil β := by
  induction n with
  | zero => exact fun _ _ => rfl
  | succ n ih =>
    intro s id
    have hmodify : (s.veil β).modify id (fun scope => { scope with captured := true }) =
        (s.modify id fun scope => { scope with captured := true }).veil β :=
      modify_veil fun _ => rfl
    simp only [captureWithin]
    rw [captured_veil, parent_veil, hmodify]
    split
    · rfl
    · split
      · rfl
      · exact ih _ _

theorem capture_veil (s : Scopes) (id : ScopeId) :
    (s.veil β).capture id = (s.capture id).veil β := by
  rw [capture, size_veil, captureWithin_veil]
  rfl

theorem define_veil (h : β id = none) (name : String) (value : Option Value) :
    (s.veil β).define id name value =
      ((s.define id name value).1, (s.define id name value).2.veil β) := by
  unfold define
  rw [scope_veil_none h]
  split
  · rfl
  · rw [modify_veil (by simp [h, Scope.veil])]

/-- No scope with a veil is around a scope without one. -/
structure Clear (β : Veil) (s : Scopes) : Prop where
  live : ∀ id, β id ≠ none → s.Live id
  outward : ∀ id parent, s.Live id → β id = none → (s.scope id).parent = some parent →
    s.Live parent ∧ β parent = none

theorem Clear.around (h : s.Clear β) {l : List ScopeId} (hl : s.Around id l) (hid : s.Live id)
    (hβ : β id = none) : ∀ j ∈ l, β j = none := by
  induction hl with
  | outermost _ => simpa using hβ
  | inside hp _ ih =>
    obtain ⟨hlive, hparent⟩ := h.outward _ _ hid hβ hp
    simpa [hβ] using ih hlive hparent

theorem Clear.push (h : s.Clear β) (hspare : ∀ id ∈ s.spare, (s.scope id).free = true)
    (parent : ScopeId) : β (s.push parent).1 = none := by
  by_contra hne
  exact push_not_live s parent hspare (h.live _ hne)

/-- The search for a name goes the same way, and ends at a scope without a veil. -/
theorem Clear.ownerWithin (h : s.Clear β) (name : String) (n : Nat) : ∀ {id : ScopeId},
    s.Live id → β id = none → (s.veil β).ownerWithin name n id = s.ownerWithin name n id ∧
      ∀ owner, s.ownerWithin name n id = some owner → β owner = none := by
  induction n with
  | zero => exact fun _ _ => ⟨rfl, by simp [Scopes.ownerWithin]⟩
  | succ n ih =>
    intro id hid hβ
    simp only [Scopes.ownerWithin]
    rw [scope_veil_none hβ]
    split
    · refine ⟨rfl, fun owner ho => ?_⟩
      cases ho
      exact hβ
    · cases hp : (s.scope id).parent with
      | none => exact ⟨rfl, by simp⟩
      | some parent =>
        obtain ⟨hlive, hparent⟩ := h.outward id parent hid hβ hp
        exact ih hlive hparent

theorem Clear.owner (h : s.Clear β) (hid : s.Live id) (hβ : β id = none) (name : String) :
    (s.veil β).owner id name = s.owner id name ∧
      ∀ owner, s.owner id name = some owner → β owner = none := by
  unfold Scopes.owner
  rw [size_veil]
  exact h.ownerWithin name _ hid hβ

theorem Clear.get (h : s.Clear β) (hid : s.Live id) (hβ : β id = none) (name : String) :
    (s.veil β).get id name = s.get id name := by
  obtain ⟨howner, hnone⟩ := h.owner hid hβ name
  unfold Scopes.get
  rw [howner]
  cases ho : s.owner id name with
  | none => rfl
  | some owner => simp only [scope_veil_none (hnone owner ho)]

theorem Clear.assign (h : s.Clear β) (hid : s.Live id) (hβ : β id = none) (name : String)
    (value : Value) : (s.veil β).assign id name value =
      ((s.assign id name value).1, (s.assign id name value).2.veil β) := by
  obtain ⟨howner, hnone⟩ := h.owner hid hβ name
  unfold Scopes.assign
  rw [howner]
  cases ho : s.owner id name with
  | none => rfl
  | some owner =>
    have hmodify : (s.veil β).modify owner (fun scope =>
        { scope with bindings := Bindings.set name value scope.bindings }) = _ :=
      modify_veil (by simp [hnone owner ho, Scope.veil])
    simp only [hmodify]

end Scopes

namespace World

variable {β : Veil} {w : World}

def veil (β : Veil) (w : World) : World := { w with scopes := w.scopes.veil β }

/-- The world under a veil, with another current scope. -/
def elsewhere (β : Veil) (here : ScopeId) (w : World) : World :=
  { w with scopes := w.scopes.veil β, scope := here }

theorem elsewhere_scope (β : Veil) (w : World) : w.elsewhere β w.scope = w.veil β := rfl

/-- The current scope has no veil, and neither has any around it; a slot that is free has none. -/
structure Clear (β : Veil) (w : World) : Prop extends w.scopes.Clear β where
  current : β w.scope = none
  current_live : w.scopes.Live w.scope
  spare : ∀ id ∈ w.scopes.spare, id.slot < w.scopes.slots.size ∧ (w.scopes.scope id).free = true

theorem Clear.lookup (h : w.Clear β) (name : Token) : (w.veil β).lookup name = w.lookup name := by
  unfold World.lookup
  rw [show (w.veil β).scopes.get (w.veil β).scope name.source = _ from
    h.toClear.get h.current_live h.current name.source]

theorem define_veil (h : β w.scope = none) (name : Token) (value : Option Value) :
    (w.veil β).define name value = ((w.define name value).1, (w.define name value).2.veil β) := by
  unfold define
  rw [show (w.veil β).scopes.define (w.veil β).scope name.source value = _ from
    Scopes.define_veil h name.source value]
  rcases w.scopes.define w.scope name.source value with ⟨_ | _, scopes⟩ <;> rfl

theorem Clear.assign (h : w.Clear β) (name : Token) (value : Value) :
    (w.veil β).assign name value = ((w.assign name value).1, (w.assign name value).2.veil β) := by
  unfold World.assign
  rw [show (w.veil β).scopes.assign (w.veil β).scope name.source value = _ from
    h.toClear.assign h.current_live h.current name.source value]
  rcases w.scopes.assign w.scope name.source value with ⟨_ | _, scopes⟩ <;> rfl

theorem close_veil (name : Token) (params : List Token) (body : List Stmt) :
    (w.veil β).close name params body =
      ((w.close name params body).1, (w.close name params body).2.veil β) := by
  simp only [close, veil, Scopes.capture_veil]

theorem bind_veil (params : List (Token × Value)) : ∀ {w : World}, β w.scope = none →
    (w.veil β).bind params = ((w.bind params).1, (w.bind params).2.veil β) := by
  induction params with
  | nil => exact fun _ => rfl
  | cons p rest ih =>
    intro w h
    have hscope := w.scope_define p.1 (some p.2)
    unfold bind
    rw [define_veil h]
    rcases hd : w.define p.1 (some p.2) with ⟨r, w'⟩
    rw [hd] at hscope
    cases r with
    | ok u => exact ih (hscope ▸ h)
    | error e => rfl

/-- Native functions see no scopes. -/
theorem perform_scopes (w : World) (scopes : Scopes) (here : ScopeId) (args : List Value)
    (a : Action) : ({ w with scopes, scope := here } : World).perform args a =
      ((w.perform args a).1, { (w.perform args a).2 with scopes, scope := here }) := by
  cases a with
  | clock => rfl
  | print | println | exit =>
    simp only [perform, operate]
    split <;> rfl
  | read =>
    simp only [perform]
    split <;> rfl

/-- A new scope is entered wherever one is. -/
theorem enter_elsewhere {parent : ScopeId} (h : β (w.scopes.push parent).1 = none)
    (here : ScopeId) : (w.elsewhere β here).enter parent = (w.enter parent).veil β := by
  have hpush : (w.elsewhere β here).scopes.push parent = _ := Scopes.push_veil parent h
  simp only [enter, hpush]
  rfl

theorem leave_veil {left : ScopeId} (h : β left = none) (back here : ScopeId) :
    (w.veil β).leave left here = (w.leave left back).elsewhere β here := by
  have hrelease : (w.veil β).scopes.release left = _ := Scopes.release_veil h
  simp only [leave, hrelease]
  rfl

end World

namespace State

open World

variable {β : Veil} {k : List Frame} {w : World}

def veil (β : Veil) (s : State) : State := ⟨s.control, s.frames, s.world.veil β⟩

theorem outcome_veil (β : Veil) (s : State) : (s.veil β).outcome? = s.outcome? := by
  obtain ⟨c, k, w⟩ := s
  cases c <;> cases k <;> rfl

/-! ## One step -/

theorem ofResult_veil (r : Except RuntimeError Value) :
    ofResult k (w.veil β) r = (ofResult k w r).veil β := by
  cases r <;> rfl

theorem after_veil (c : Control) (r : Except RuntimeError Unit × World) :
    after k c (r.1, r.2.veil β) = (after k c r).veil β := by
  obtain ⟨_ | _, w'⟩ := r <;> rfl

theorem eval_veil (h : w.Clear β) (e : Expr) : eval k (w.veil β) e = (eval k w e).veil β := by
  cases e with
  | reference name =>
    simp only [eval, h.lookup]
    exact ofResult_veil _
  | _ => rfl

theorem exec_veil (h : w.Clear β) (s : Stmt) : exec k (w.veil β) s = (exec k w s).veil β := by
  cases s with
  | block body =>
    have hnew := h.toClear.push (fun id hid => (h.spare id hid).2) w.scope
    have henter := enter_elsewhere hnew w.scope
    rw [elsewhere_scope] at henter
    simp only [exec]
    rw [show (w.veil β).scope = w.scope from rfl, henter]
    rfl
  | func name params body =>
    have hcurrent : β (w.close name params body).2.scope = none := h.current
    simp only [exec, close_veil, define_veil hcurrent]
    exact after_veil _ _
  | ret keyword value => cases value <;> rfl
  | declare name value =>
    cases value with
    | none =>
      simp only [exec, define_veil h.current]
      exact after_veil _ _
    | some e => rfl
  | _ => rfl

/-- The body of a function runs in a new scope inside that of its declaration, so that it does not
matter where the function is called, but for where to go back to. -/
theorem callFunction_elsewhere (params : List Token) (body : List Stmt) {closure : ScopeId}
    (args : List Value) (h : β (w.scopes.push closure).1 = none)
    (hspare : ∀ id ∈ w.scopes.spare, id.slot < w.scopes.slots.size) (here : ScopeId) :
    (∃ left w', (w'.scopes.scope left).parent = some closure ∧
      callFunction k w params body closure args =
        ⟨.flow .normal, .sequence body :: .leave left w.scope :: .endCall :: k, w'⟩ ∧
      callFunction k (w.elsewhere β here) params body closure args =
        ⟨.flow .normal, .sequence body :: .leave left here :: .endCall :: k, w'.veil β⟩) ∨
    ∃ e w', callFunction k w params body closure args = ⟨.raise e, k, w'⟩ ∧ w'.scope = w.scope ∧
      callFunction k (w.elsewhere β here) params body closure args =
        ⟨.raise e, k, w'.elsewhere β here⟩ := by
  have henter := enter_elsewhere h here
  have hbind : ((w.enter closure).veil β).bind (params.zip args) = _ :=
    bind_veil (params.zip args) h
  obtain ⟨hrebound, hscope⟩ := (w.enter closure).rebound_bind (params.zip args)
  simp only [callFunction, henter, hbind]
  rcases hr : (w.enter closure).bind (params.zip args) with ⟨r, w'⟩
  rw [hr] at hrebound hscope
  cases r with
  | ok u =>
    have hpush := Scopes.push_pushed w.scopes closure hspare
    refine .inl ⟨_, _, ?_, rfl, rfl⟩
    rw [hscope]
    exact (hrebound.parent _).trans (congrArg Scope.parent hpush.fresh)
  | error e =>
    have hleft : β w'.scope = none := hscope ▸ h
    exact .inr ⟨e, _, rfl, rfl, congrArg (State.mk _ _) (leave_veil hleft w.scope here)⟩

theorem call_elsewhere (h : w.scopes.Clear β)
    (hspare : ∀ id ∈ w.scopes.spare,
      id.slot < w.scopes.slots.size ∧ (w.scopes.scope id).free = true)
    (here : ScopeId) (paren : Token) (callee : Value) (args : List Value) :
    (∃ body closure left w', callee.closure? = some closure ∧
      (w'.scopes.scope left).parent = some closure ∧
      call k w paren callee args =
        ⟨.flow .normal, .sequence body :: .leave left w.scope :: .endCall :: k, w'⟩ ∧
      call k (w.elsewhere β here) paren callee args =
        ⟨.flow .normal, .sequence body :: .leave left here :: .endCall :: k, w'.veil β⟩) ∨
    ∃ c w', call k w paren callee args = ⟨c, k, w'⟩ ∧ w'.scope = w.scope ∧
      (outcome? ⟨c, [], w'⟩).isSome = true ∧
      call k (w.elsewhere β here) paren callee args = ⟨c, k, w'.elsewhere β here⟩ := by
  cases callee with
  | nil | bool | number | text => exact .inr ⟨_, w, rfl, rfl, rfl, rfl⟩
  | callable identity c =>
    simp only [call]
    split
    · exact .inr ⟨_, w, rfl, rfl, rfl, rfl⟩
    · rw [show (w.elsewhere β here).depth = w.depth from rfl]
      split
      · exact .inr ⟨_, w, rfl, rfl, rfl, rfl⟩
      · cases c with
        | function name params body closure =>
          have hnew := h.push (fun id hid => (hspare id hid).2) closure
          rcases callFunction_elsewhere (k := k) params body args hnew
            (fun id hid => (hspare id hid).1) here with ⟨left, w', hp, h1, h2⟩ | ⟨e, w', h1, hs, h2⟩
          · exact .inl ⟨body, closure, left, w', rfl, hp, h1, h2⟩
          · exact .inr ⟨_, w', h1, hs, rfl, h2⟩
        | native n =>
          obtain ⟨effect, w', he, hscopes, hs, -⟩ := perform_plain w args n.action
          have hveil := w.perform_scopes (w.scopes.veil β) here args n.action
          rw [he, ← hscopes] at hveil
          simp only [elsewhere, he, ← hscopes, hveil]
          cases effect <;> exact .inr ⟨_, w', rfl, hs, rfl, rfl⟩

theorem nextArgument_veil (h : w.Clear β) (paren : Token) (callee : Value) (done : List Value)
    (args : List Expr) : nextArgument k (w.veil β) paren callee done args =
      (nextArgument k w paren callee done args).veil β := by
  cases args with
  | nil =>
    rcases call_elsewhere (k := k) h.toClear h.spare w.scope paren callee done.reverse with
      ⟨body, _, left, w', -, -, h1, h2⟩ | ⟨c, w', h1, hs, -, h2⟩ <;> rw [elsewhere_scope] at h2
    · simp only [nextArgument, h1, h2]
      rfl
    · simp only [nextArgument, h1, h2, ← hs, elsewhere_scope]
      rfl
  | cons arg args => rfl

theorem resume_veil (h : w.Clear β) (v : Value) (f : Frame) :
    resume k (w.veil β) v f = (resume k w v f).veil β := by
  cases f with
  | assign name =>
    simp only [resume, h.assign]
    exact after_veil _ _
  | declare name =>
    simp only [resume, define_veil h.current]
    exact after_veil _ _
  | right | sign => exact ofResult_veil _
  | callee | argument => exact nextArgument_veil h _ _ _ _
  | branch body otherwise =>
    simp only [resume]
    split
    · rfl
    · cases otherwise <;> rfl
  | decide | test =>
    simp only [resume]
    split <;> rfl
  | _ => rfl

theorem proceed_veil (flow : Flow) {f : Frame} (hf : ∀ id ∈ Frame.opened [f], β id = none) :
    proceed k (w.veil β) flow f = (proceed k w flow f).veil β := by
  cases f with
  | round loop =>
    cases flow with
    | broke | returned => rfl
    | normal | continued =>
      simp only [proceed]
      split <;> rfl
  | sequence rest =>
    cases flow with
    | normal => cases rest <;> rfl
    | broke | continued | returned => rfl
  | leave left back =>
    exact congrArg (State.mk _ _) (leave_veil (hf left (by simp [Frame.opened])) back back)
  | _ => rfl

theorem unwind_veil (e : RuntimeError) {f : Frame} (hf : ∀ id ∈ Frame.opened [f], β id = none) :
    unwind k (w.veil β) e f = (unwind k w e f).veil β := by
  cases f with
  | leave left back =>
    exact congrArg (State.mk _ _) (leave_veil (hf left (by simp [Frame.opened])) back back)
  | _ => rfl

/-- A step does not see a veil. -/
theorem step_veil {s : State} (h : s.world.Clear β)
    (hopened : ∀ id ∈ Frame.opened s.frames, β id = none) :
    (s.veil β).step = s.step.veil β := by
  obtain ⟨c, k, w⟩ := s
  have hfirst : ∀ f k', k = f :: k' → ∀ id ∈ Frame.opened [f], β id = none := by
    rintro f k' rfl id hid
    refine hopened id ?_
    cases f <;> simp_all [Frame.opened]
  cases c with
  | eval e => exact eval_veil h e
  | exec s => exact exec_veil h s
  | value v =>
    cases k with
    | nil => rfl
    | cons f k => exact resume_veil h v f
  | flow flow =>
    cases k with
    | nil => rfl
    | cons f k => exact proceed_veil flow (hfirst f k rfl)
  | raise e =>
    cases k with
    | nil => rfl
    | cons f k => exact unwind_veil e (hfirst f k rfl)
  | exit => rfl

end State

end Script
