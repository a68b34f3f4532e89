import Script.Proofs.NoScopeLeaks
import Script.Proofs.Renaming

/-!
# Stores that stand in for others

A store may hold the scopes of another one under other names. If whatever is done to the one can be
done to the other, with the same result, then two machines that differ in their stores only take the
same steps, and nothing that is seen of their calls tells them apart. What it takes for one kind of
store to stand in for another is asked of the operations on stores alone.
-/

namespace Script

namespace Scopes

theorem Tidy.owner_live {s : Scopes} {opened : List ScopeId} (hs : s.Tidy opened) {name : String}
    {id owner : ScopeId} (hid : s.Live id) (ho : s.owner id name = some owner) : s.Live owner := by
  obtain ⟨l, hl⟩ := hs.rooted id hid
  have hf := ownerWithin_finds hl name (hs.around_length hl hid)
  rw [show s.ownerWithin name s.slots.size id = some owner from ho] at hf
  clear hl ho
  generalize hr : some owner = r at hf
  induction hf with
  | here _ => cases hr; exact hid
  | nowhere _ _ => cases hr
  | outside _ hp _ ih => exact ih (hs.parent_live _ _ hid hp) hr

/-- `R ρ s s'` says that the second store stands in for the first one, whose scopes go by the names
that `ρ` gives them; it does so for as long as names are bound in scopes of `D` only, and scopes
other than those of `D` are not left. -/
structure Imitation (R : (ScopeId → ScopeId) → Scopes → Scopes → Prop) (D : ScopeId → Prop) :
    Prop where
  fresh : ∀ {ρ s s' id}, R ρ s s' → ¬ s.Live id → D id
  get : ∀ {ρ s s' opened id}, R ρ s s' → s.Sound opened → s.Live id → ∀ name,
    s'.get (ρ id) name = (s.get id name).map (Value.rename ρ)
  define : ∀ {ρ s s' opened id}, R ρ s s' → s.Sound opened → s.Live id → D id → ∀ name value,
    (s'.define (ρ id) name (value.map (Value.rename ρ))).1 = (s.define id name value).1 ∧
      R ρ (s.define id name value).2 (s'.define (ρ id) name (value.map (Value.rename ρ))).2
  assign : ∀ {ρ s s' opened id}, R ρ s s' → s.Sound opened → s.Live id → ∀ name value,
    (s'.assign (ρ id) name (value.rename ρ)).1 = (s.assign id name value).1 ∧
      R ρ (s.assign id name value).2 (s'.assign (ρ id) name (value.rename ρ)).2
  capture : ∀ {ρ s s'} id, R ρ s s' → R ρ (s.capture id) (s'.capture (ρ id))
  push : ∀ {ρ s s' opened parent}, R ρ s s' → s.Sound opened → s.Live parent →
    ∃ ρ', R ρ' (s.push parent).2 (s'.push (ρ parent)).2 ∧
      ρ' (s.push parent).1 = (s'.push (ρ parent)).1 ∧ ∀ id, s.Live id → ρ' id = ρ id
  release : ∀ {ρ s s' opened id}, R ρ s s' → s.Sound (id :: opened) → D id →
    R ρ (s.release id) (s'.release (ρ id))

end Scopes

/-- The same world with another store, in which the scopes have other names. -/
def World.mirror (ρ : ScopeId → ScopeId) (s' : Scopes) (w : World) : World :=
  { w with scopes := s', scope := ρ w.scope }

def State.mirror (ρ : ScopeId → ScopeId) (s' : Scopes) (s : State) : State :=
  ⟨s.control.rename ρ, s.frames.map (Frame.rename ρ), s.world.mirror ρ s'⟩

/-- The second state is the first one in a world with a store that stands in for its own. The names
of the scopes that were in use before are still those that `ρ` gives them. -/
def State.Imitated (R : (ScopeId → ScopeId) → Scopes → Scopes → Prop) (ρ : ScopeId → ScopeId)
    (before : Scopes) (s t : State) : Prop :=
  ∃ ρ' s', R ρ' s.world.scopes s' ∧ t = s.mirror ρ' s' ∧ ∀ id, before.Live id → ρ' id = ρ id

/-- The scope in which the next step binds a name, or the one that it leaves. -/
def State.touches : State → Option ScopeId
  | ⟨.exec (.func _ _ _), _, w⟩ => some w.scope
  | ⟨.exec (.declare _ none), _, w⟩ => some w.scope
  | ⟨.value _, .declare _ :: _, w⟩ => some w.scope
  | ⟨.flow _, .leave left _ :: _, _⟩ => some left
  | ⟨.raise _, .leave left _ :: _, _⟩ => some left
  | _ => none

/-! ## Worlds -/

namespace World

open Scopes

theorem leave_mem {id back : ScopeId} : ∀ {k : List Frame}, Frame.Backs k →
    Frame.leave id back ∈ k →
    id ∈ Frame.opened k ∧ (back = .global ∨ back ∈ Frame.opened k)
  | f :: k, hb, hm => by
    cases hf : f.isLeave with
    | false =>
      rw [Frame.opened_cons hf]
      refine leave_mem ((Frame.backs_cons hf k).mp hb) ?_
      rcases List.mem_cons.mp hm with rfl | hm
      · cases hf
      · exact hm
    | true =>
      cases f with
      | leave id' back' =>
        obtain ⟨hback, hb⟩ := hb
        rcases List.mem_cons.mp hm with e | hm
        · cases e
          refine ⟨by simp [Frame.opened], ?_⟩
          rw [hback]
          cases hk : Frame.opened k with
          | nil => exact .inl rfl
          | cons a rest => exact .inr (by simp [Frame.opened, hk])
        · obtain ⟨h1, h2⟩ := leave_mem hb hm
          exact ⟨List.mem_cons_of_mem _ h1, h2.imp_right (List.mem_cons_of_mem _)⟩
      | _ => cases hf

section
variable {w : World} {k : List Frame} {ρ ρ' : ScopeId → ScopeId} (hw : w.Sound k)
  (h : ∀ id, w.scopes.Live id → ρ' id = ρ id)
include hw h

/-- Frames and values mention no scope whose slot is free, so they do not notice when the renaming
changes there. -/
theorem Sound.value_congr {v : Value} (hv : w.scopes.Keeps v) : v.rename ρ' = v.rename ρ :=
  Value.rename_congr fun c hc => h c (hw.store.tidy.captured_live c (hv c hc))

theorem Sound.frames_congr : k.map (Frame.rename ρ') = k.map (Frame.rename ρ) := by
  refine List.map_congr_left fun f hf => ?_
  refine Frame.rename_congr (fun v hv => hw.value_congr h (hw.waiting f hf v hv)) ?_
  rintro id back rfl
  obtain ⟨h1, h2⟩ := leave_mem hw.backs hf
  refine ⟨h id (hw.store.tidy.opened_live id h1), h back ?_⟩
  rcases h2 with rfl | h2
  · exact hw.store.tidy.root_live
  · exact hw.store.tidy.opened_live back h2

end

theorem perform_mirror (ρ : ScopeId → ScopeId) (s' : Scopes) (w : World) (args : List Value)
    (a : Action) : (w.mirror ρ s').perform (args.map (Value.rename ρ)) a =
      ((w.perform args a).1, (w.perform args a).2.mirror ρ s') := by
  cases a with
  | clock => rfl
  | print | println | exit =>
    simp only [perform, operate, rendered_rename]
    simp only [mirror]
    split <;> rfl
  | read =>
    simp only [perform, mirror]
    split <;> rfl

section
variable {R : (ScopeId → ScopeId) → Scopes → Scopes → Prop} {D : ScopeId → Prop}
  (hI : Imitation R D) {ρ : ScopeId → ScopeId} {s' : Scopes} {w : World} {k : List Frame}
  (h : R ρ w.scopes s')
include hI h

theorem lookup_mirror (hw : w.Sound k) (name : Token) :
    (w.mirror ρ s').lookup name = (w.lookup name).map (Value.rename ρ) := by
  have hg : s'.get (ρ w.scope) name.source = (w.scopes.get w.scope name.source).map _ :=
    hI.get h hw.store hw.scope_live name.source
  simp only [lookup, mirror, hg]
  rcases w.scopes.get w.scope name.source with (_ | _) | v <;> rfl

theorem define_mirror (hw : w.Sound k) (hD : D w.scope) (name : Token) (value : Option Value) :
    ∃ t', R ρ (w.define name value).2.scopes t' ∧
      (w.mirror ρ s').define name (value.map (Value.rename ρ)) =
        ((w.define name value).1, (w.define name value).2.mirror ρ t') := by
  obtain ⟨h1, h2⟩ := hI.define h hw.store hw.scope_live hD name.source value
  simp only [define, mirror]
  generalize s'.define (ρ w.scope) name.source (value.map (Value.rename ρ)) = r' at *
  generalize w.scopes.define w.scope name.source value = r at *
  obtain ⟨b, t⟩ := r
  obtain ⟨b', t'⟩ := r'
  cases h1
  cases b <;> exact ⟨t', h2, rfl⟩

theorem assign_mirror (hw : w.Sound k) (name : Token) (value : Value) :
    ∃ t', R ρ (w.assign name value).2.scopes t' ∧
      (w.mirror ρ s').assign name (value.rename ρ) =
        ((w.assign name value).1, (w.assign name value).2.mirror ρ t') := by
  obtain ⟨h1, h2⟩ := hI.assign h hw.store hw.scope_live name.source value
  simp only [assign, mirror]
  generalize s'.assign (ρ w.scope) name.source (value.rename ρ) = r' at *
  generalize w.scopes.assign w.scope name.source value = r at *
  obtain ⟨b, t⟩ := r
  obtain ⟨b', t'⟩ := r'
  cases h1
  cases b <;> exact ⟨t', h2, rfl⟩

theorem enter_mirror (hw : w.Sound k) {parent : ScopeId} (hp : w.scopes.Live parent) :
    ∃ ρ' t', R ρ' (w.enter parent).scopes t' ∧
      (w.mirror ρ s').enter (ρ parent) = (w.enter parent).mirror ρ' t' ∧
      ∀ id, w.scopes.Live id → ρ' id = ρ id := by
  obtain ⟨ρ', hpush, hnew, hold⟩ := hI.push h hw.store hp
  refine ⟨ρ', _, hpush, ?_, hold⟩
  simp [enter, mirror, hnew]

theorem leave_mirror {left back : ScopeId} (hw : w.Sound (.leave left back :: k)) (hD : D left) :
    ∃ t', R ρ (w.leave left back).scopes t' ∧
      (w.mirror ρ s').leave (ρ left) (ρ back) = (w.leave left back).mirror ρ t' :=
  ⟨_, hI.release h hw.store hD, rfl⟩

omit h in
theorem bind_mirror (h : R ρ w.scopes s') (hw : w.Sound k) (hD : D w.scope)
    (params : List (Token × Value)) (hv : ∀ p ∈ params, w.scopes.Keeps p.2) :
    ∃ t', R ρ (w.bind params).2.scopes t' ∧
      (w.mirror ρ s').bind (params.map fun p => (p.1, p.2.rename ρ)) =
        ((w.bind params).1, (w.bind params).2.mirror ρ t') := by
  induction params generalizing w s' with
  | nil => exact ⟨s', h, rfl⟩
  | cons p rest ih =>
    obtain ⟨param, arg⟩ := p
    obtain ⟨t', ht, he⟩ := define_mirror hI h hw hD param (some arg)
    obtain ⟨hs, hr⟩ := hw.define param (some arg) fun v e => by
      cases e
      exact hv (param, arg) (by simp)
    have hscope := w.scope_define param (some arg)
    simp only [List.map_cons, World.bind]
    rw [Option.map_some] at he
    rw [he]
    generalize w.define param (some arg) = r at *
    obtain ⟨r, w'⟩ := r
    cases r with
    | error e => exact ⟨t', ht, rfl⟩
    | ok u =>
      refine ih ht hs ?_ fun q hq => (hv q (by simp [hq])).mono hr
      rw [show w'.scope = w.scope from hscope]
      exact hD

end

end World

/-! ## Steps -/

namespace State

open Scopes

section
variable {R : (ScopeId → ScopeId) → Scopes → Scopes → Prop} {D : ScopeId → Prop}
  {ρ : ScopeId → ScopeId} {s' : Scopes} {w : World} {k : List Frame}

theorem imitated_same {before : Scopes} {c : Control} (h : R ρ w.scopes s') :
    Imitated R ρ before ⟨c, k, w⟩ ⟨c.rename ρ, k.map (Frame.rename ρ), w.mirror ρ s'⟩ :=
  ⟨ρ, s', h, rfl, fun _ _ => rfl⟩

theorem ofResult_imitated (before : Scopes) (h : R ρ w.scopes s') (r : Except RuntimeError Value) :
    Imitated R ρ before (ofResult k w r)
      (ofResult (k.map (Frame.rename ρ)) (w.mirror ρ s') (r.map (Value.rename ρ))) := by
  cases r <;> exact imitated_same h

theorem after_imitated (before : Scopes) {r : Except RuntimeError Unit × World}
    (h : R ρ r.2.scopes s') (c : Control) :
    Imitated R ρ before (after k c r)
      (after (k.map (Frame.rename ρ)) (c.rename ρ) (r.1, r.2.mirror ρ s')) := by
  obtain ⟨r, w'⟩ := r
  cases r <;> exact imitated_same h

theorem map_rename_plain {r : Except RuntimeError Value}
    (h : ∀ v, r = .ok v → v.closure? = none) : r.map (Value.rename ρ) = r := by
  cases r with
  | ok v => simp only [Except.map, Value.rename_plain ρ (h v rfl)]
  | error e => rfl

variable (hI : Imitation R D) (h : R ρ w.scopes s')
include hI h

theorem eval_imitated (hw : w.Sound k) (e : Expr) : Imitated R ρ w.scopes (eval k w e)
    (eval (k.map (Frame.rename ρ)) (w.mirror ρ s') e) := by
  cases e with
  | reference name =>
    simp only [eval, World.lookup_mirror hI h hw]
    exact ofResult_imitated _ h _
  | constant value =>
    refine ⟨ρ, s', h, ?_, fun _ _ => rfl⟩
    simp only [eval, mirror, Control.rename, Value.rename_plain ρ (closure?_ofConstant value)]
  | _ => exact imitated_same h

theorem exec_imitated (hw : w.Sound k) (s : Stmt) (hD : ∀ id ∈ touches ⟨.exec s, k, w⟩, D id) :
    Imitated R ρ w.scopes (exec k w s) (exec (k.map (Frame.rename ρ)) (w.mirror ρ s') s) := by
  cases s with
  | block body =>
    obtain ⟨ρ', t', ht, he, hρ⟩ := World.enter_mirror hI h hw hw.scope_live
    refine ⟨ρ', t', ht, ?_, hρ⟩
    simp only [exec]
    rw [show (w.mirror ρ s').scope = ρ w.scope from rfl, he, ← hw.frames_congr hρ,
      ← hρ w.scope hw.scope_live]
    rfl
  | func name params body =>
    have hc := hI.capture w.scope h
    obtain ⟨hs, -, -⟩ := hw.close name params body
    obtain ⟨t', ht, he⟩ := World.define_mirror hI (w := (w.close name params body).2) hc hs
      (hD w.scope rfl) name (some (w.close name params body).1)
    have hm := after_imitated (k := k) w.scopes ht (.flow .normal)
    rw [← he] at hm
    exact hm
  | ret _ value => cases value <;> exact imitated_same h
  | declare name value =>
    cases value with
    | none =>
      obtain ⟨t', ht, he⟩ := World.define_mirror hI h hw (hD w.scope rfl) name none
      have hm := after_imitated (k := k) w.scopes ht (.flow .normal)
      rw [← he] at hm
      exact hm
    | some e => exact imitated_same h
  | _ => exact imitated_same h

theorem callFunction_imitated (hw : w.Sound k) (params : List Token) (body : List Stmt)
    {closure : ScopeId} (hc : (w.scopes.scope closure).captured = true) (args : List Value)
    (hv : ∀ v ∈ args, w.scopes.Keeps v) :
    Imitated R ρ w.scopes (callFunction k w params body closure args)
      (callFunction (k.map (Frame.rename ρ)) (w.mirror ρ s') params body (ρ closure)
        (args.map (Value.rename ρ))) := by
  have hlive := hw.store.tidy.captured_live closure hc
  obtain ⟨ρ', t', ht, he, hρ⟩ := World.enter_mirror hI h hw hlive
  -- the scope of the call was not in use, so names may be bound in it
  have hD : D (w.enter closure).scope :=
    hI.fresh h (push_not_live w.scopes closure hw.store.tidy.spare_free)
  obtain ⟨hs, hr⟩ := (hw.cons (f := .endCall) rfl keeps_none).enter closure (.inr hc)
  have hvp : ∀ p ∈ params.zip args, (w.enter closure).scopes.Keeps p.2 := fun p hp =>
    (hv p.2 (List.of_mem_zip hp).2).mono hr
  obtain ⟨u', hu, hb⟩ := World.bind_mirror hI ht hs hD (params.zip args) hvp
  obtain ⟨hs', -⟩ := hs.bind (params.zip args) hvp
  -- the arguments are renamed by `ρ`, but to no other names than `ρ'` gives
  have hargs : params.zip (args.map (Value.rename ρ)) =
      (params.zip args).map fun p => (p.1, p.2.rename ρ') := by
    rw [List.map_congr_left fun v hm => (hw.value_congr hρ (hv v hm)).symm, List.zip_map_right]
    rfl
  simp only [callFunction]
  rw [he, hargs, hb, ← hw.frames_congr hρ, show (w.mirror ρ s').scope = ρ w.scope from rfl,
    ← hρ w.scope hw.scope_live]
  generalize (w.enter closure).bind (params.zip args) = r at *
  obtain ⟨r, w'⟩ := r
  cases r with
  | ok u => exact ⟨ρ', u', hu, rfl, hρ⟩
  | error e =>
    have hscope : w'.scope = (w.enter closure).scope := hs'.current
    rw [← hscope] at hs' hD
    obtain ⟨v', hv', hl⟩ := World.leave_mirror hI hu hs' hD
    refine ⟨ρ', v', hv', ?_, hρ⟩
    simp only [mirror, Control.rename]
    rw [← hl]
    rfl

theorem call_imitated (hw : w.Sound k) (paren : Token) {callee : Value}
    (hc : w.scopes.Keeps callee) (args : List Value) (hv : ∀ v ∈ args, w.scopes.Keeps v) :
    Imitated R ρ w.scopes (call k w paren callee args)
      (call (k.map (Frame.rename ρ)) (w.mirror ρ s') paren (callee.rename ρ)
        (args.map (Value.rename ρ))) := by
  cases callee with
  | nil | bool | number | text => exact imitated_same h
  | callable identity c =>
    -- both ask the same of the number of arguments and of the depth
    have hdepth : (w.mirror ρ s').depth = w.depth := rfl
    cases c with
    | function name params body closure =>
      simp only [call, Value.rename, Callable.arity, List.length_map, hdepth]
      split
      · exact imitated_same h
      · split
        · exact imitated_same h
        · exact callFunction_imitated hI h hw params body (hc closure rfl) args hv
    | native n =>
      simp only [call, Value.rename, Callable.arity, List.length_map, hdepth]
      split
      · exact imitated_same h
      · split
        · exact imitated_same h
        · obtain ⟨effect, w', he, hs, -, hplain⟩ := perform_plain w args n.action
          rw [World.perform_mirror, he]
          have h' : R ρ w'.scopes s' := hs ▸ h
          cases effect with
          | value v =>
            refine ⟨ρ, s', h', ?_, fun _ _ => rfl⟩
            simp only [mirror, Control.rename, Value.rename_plain ρ (hplain v rfl)]
          | fault | exit => exact imitated_same h'

theorem nextArgument_imitated (hw : w.Sound k) (paren : Token) {callee : Value}
    (hc : w.scopes.Keeps callee) {done : List Value} (hv : ∀ v ∈ done, w.scopes.Keeps v)
    (args : List Expr) : Imitated R ρ w.scopes (nextArgument k w paren callee done args)
      (nextArgument (k.map (Frame.rename ρ)) (w.mirror ρ s') paren (callee.rename ρ)
        (done.map (Value.rename ρ)) args) := by
  cases args with
  | nil =>
    simp only [nextArgument, ← List.map_reverse]
    exact call_imitated hI h hw paren hc _ fun v hm => hv v (List.mem_reverse.mp hm)
  | cons arg args => exact imitated_same h

theorem resume_imitated {f : Frame} (hf : f.takesValue = true) (hw : w.Sound (f :: k)) {v : Value}
    (hv : w.scopes.Keeps v) (hD : ∀ id ∈ touches ⟨.value v, f :: k, w⟩, D id) :
    Imitated R ρ w.scopes (resume k w v f)
      (resume (k.map (Frame.rename ρ)) (w.mirror ρ s') (v.rename ρ) (f.rename ρ)) := by
  have hk : w.Sound k := hw.uncons (by cases f <;> first | rfl | cases hf)
  have hwait := hw.top
  cases f with
  | assign name =>
    obtain ⟨t', ht, he⟩ := World.assign_mirror hI h hk name v
    have hm := after_imitated (k := k) w.scopes ht (.value v)
    rw [← he] at hm
    exact hm
  | right left op =>
    have hm := ofResult_imitated (k := k) w.scopes h
      ((Operator.apply op.kind left v).mapError fun f => ⟨op, f⟩)
    rw [map_rename_plain fun u hu => apply_plain (mapError_ok hu)] at hm
    simpa only [resume, Frame.rename, Operator.apply_rename] using hm
  | sign op =>
    have hm := ofResult_imitated (k := k) w.scopes h
      ((Operator.applySign op.kind v).mapError fun f => ⟨op, f⟩)
    rw [map_rename_plain fun u hu => applySign_plain (mapError_ok hu)] at hm
    simpa only [resume, Frame.rename, Operator.applySign_rename] using hm
  | decide op right =>
    simp only [resume, Frame.rename, Operator.decides_rename]
    split <;> exact imitated_same h
  | callee paren args => exact nextArgument_imitated hI h hk paren hv keeps_none args
  | argument paren callee done args =>
    obtain ⟨h1, h2⟩ := List.forall_mem_cons.mp hwait
    exact nextArgument_imitated hI h hk paren h1 (List.forall_mem_cons.mpr ⟨hv, h2⟩) args
  | branch body otherwise =>
    simp only [resume, Frame.rename, Value.isTrue_rename]
    split
    · exact imitated_same h
    · cases otherwise <;> exact imitated_same h
  | declare name =>
    obtain ⟨t', ht, he⟩ := World.define_mirror hI h hk (hD w.scope rfl) name (some v)
    have hm := after_imitated (k := k) w.scopes ht (.flow .normal)
    rw [← he] at hm
    exact hm
  | test loop =>
    simp only [resume, Frame.rename, Value.isTrue_rename]
    split <;> exact imitated_same h
  | left | discard | giveBack | stepped => exact imitated_same h
  | round | sequence | leave | endCall => cases hf

theorem proceed_imitated {f : Frame} (hf : f.takesValue = false) (hw : w.Sound (f :: k)) (fl : Flow)
    (hD : ∀ id ∈ touches ⟨.flow fl, f :: k, w⟩, D id) :
    Imitated R ρ w.scopes (proceed k w fl f)
      (proceed (k.map (Frame.rename ρ)) (w.mirror ρ s') (fl.rename ρ) (f.rename ρ)) := by
  cases f with
  | round loop =>
    cases fl with
    | broke | returned => exact imitated_same h
    | normal | continued =>
      simp only [proceed, Flow.rename, Frame.rename]
      split <;> exact imitated_same h
  | sequence rest =>
    cases fl with
    | normal => cases rest <;> exact imitated_same h
    | broke | continued | returned => exact imitated_same h
  | leave left back =>
    obtain ⟨t', ht, he⟩ := World.leave_mirror hI h hw (hD left rfl)
    refine ⟨ρ, t', ht, ?_, fun _ _ => rfl⟩
    simp only [proceed, mirror, Frame.rename, he]
    rfl
  | endCall => cases fl <;> exact ⟨ρ, s', h, rfl, fun _ _ => rfl⟩
  | _ => cases hf

theorem unwind_imitated {f : Frame} (hw : w.Sound (f :: k)) (e : RuntimeError)
    (hD : ∀ id ∈ touches ⟨.raise e, f :: k, w⟩, D id) :
    Imitated R ρ w.scopes (unwind k w e f)
      (unwind (k.map (Frame.rename ρ)) (w.mirror ρ s') e (f.rename ρ)) := by
  cases f with
  | leave left back =>
    obtain ⟨t', ht, he⟩ := World.leave_mirror hI h hw (hD left rfl)
    refine ⟨ρ, t', ht, ?_, fun _ _ => rfl⟩
    simp only [unwind, mirror, Frame.rename, he]
    rfl
  | _ => exact ⟨ρ, s', h, rfl, fun _ _ => rfl⟩

end

theorem step_imitated {R : (ScopeId → ScopeId) → Scopes → Scopes → Prop} {D : ScopeId → Prop}
    {ρ : ScopeId → ScopeId} {s' : Scopes} {s : State} (hI : Imitation R D)
    (h : R ρ s.world.scopes s') (hf : s.Fitting) (hs : s.Sound) (hD : ∀ id ∈ s.touches, D id) :
    Imitated R ρ s.world.scopes s.step (s.mirror ρ s').step := by
  obtain ⟨c, k, w⟩ := s
  obtain ⟨hw, hv⟩ := hs
  obtain ⟨b, hb, hk⟩ := hf
  cases c with
  | eval e => exact eval_imitated hI h hw e
  | exec s => exact exec_imitated hI h hw s hD
  | value v =>
    cases hb
    cases k with
    | nil => exact imitated_same h
    | cons f k => exact resume_imitated hI h hk.1 hw (hv v (by simp [Control.values])) hD
  | flow fl =>
    cases hb
    cases k with
    | nil => exact imitated_same h
    | cons f k => exact proceed_imitated hI h hk.1 hw fl hD
  | raise e =>
    cases k with
    | nil => exact imitated_same h
    | cons f k => exact unwind_imitated hI h hw e hD
  | exit => exact imitated_same h

theorem outcome?_mirror (ρ : ScopeId → ScopeId) (s' : Scopes) (s : State) :
    (s.mirror ρ s').outcome? = s.outcome?.map (Outcome.rename ρ) := by
  obtain ⟨c, k, w⟩ := s
  cases c <;> cases k <;> rfl

/-! ## Runs -/

theorem onto_mirror (ρ : ScopeId → ScopeId) (s' : Scopes) (k : List Frame) (s : State) :
    (s.onto k).mirror ρ s' = (s.mirror ρ s').onto (k.map (Frame.rename ρ)) := by
  simp [onto, mirror]

theorem onto_inj {k : List Frame} {s t : State} (h : s.onto k = t.onto k) : s = t := by
  obtain ⟨c, j, w⟩ := s
  obtain ⟨c', j', w'⟩ := t
  simpa [onto] using h

theorem touches_onto {s : State} (h : s.outcome? = none) (k : List Frame) :
    (s.onto k).touches = s.touches := by
  obtain ⟨c, j, w⟩ := s
  cases c with
  | eval => rfl
  | exec s =>
    cases s with
    | declare name value => cases value <;> rfl
    | _ => rfl
  | value | flow | raise =>
    cases j with
    | nil => cases h
    | cons f j => cases f <;> rfl
  | exit => rfl

section
variable {R : (ScopeId → ScopeId) → Scopes → Scopes → Prop} {D : ScopeId → Prop}
  {ρ : ScopeId → ScopeId} {s' : Scopes} {k : List Frame} {s : State}

theorem Above.imitated (ha : s.Above k) (hI : Imitation R D) (h : R ρ s.world.scopes s')
    (hD : ∀ id ∈ s.touches, D id) :
    Imitated R ρ s.world.scopes s.step (s.mirror ρ s').step := by
  cases ho : s.outcome? with
  | some o =>
    rw [step_ended ho, step_ended (by rw [outcome?_mirror, ho]; rfl)]
    exact ⟨ρ, s', h, rfl, fun _ _ => rfl⟩
  | none =>
    obtain ⟨ρ', t', ht, he, hρ⟩ := step_imitated (s := s.onto k) hI h ha.fitting ha.sound
      (by rwa [touches_onto ho])
    -- the frames below are renamed as before
    have hframes := ha.sound.world.frames_congr hρ
    rw [onto, List.map_append, List.map_append] at hframes
    obtain ⟨-, hk⟩ := List.append_inj' hframes (by simp)
    rw [step_onto ho] at ht
    rw [onto_mirror, step_onto (by rw [outcome?_mirror, ho]; rfl), step_onto ho, onto_mirror, hk]
      at he
    exact ⟨ρ', t', ht, onto_inj he, hρ⟩

/-- Names may be bound in the scopes that were opened above the frames `k`, and in the one that was
current below. -/
structure Ready (D : ScopeId → Prop) (k : List Frame) (s : State) : Prop where
  above : s.Above k
  base : D ((Frame.opened k).headD .global)
  opened : ∀ id ∈ Frame.opened s.frames, D id

/-- The current scope was opened above, or is the one below. -/
theorem Above.current (h : s.Above k) : s.world.scope = (Frame.opened k).headD .global ∨
    s.world.scope ∈ Frame.opened s.frames := by
  have hcurrent : s.world.scope = _ := h.sound.world.current
  rw [onto, Frame.opened_append] at hcurrent
  rw [hcurrent]
  cases Frame.opened s.frames <;> simp

theorem leaves_opened {left : ScopeId} {fs : List Frame} {back : ScopeId}
    (h : s.frames = .leave left back :: fs) : left ∈ Frame.opened s.frames := by
  rw [h]
  exact List.mem_cons_self

theorem Ready.touches (h : s.Ready D k) : ∀ id ∈ s.touches, D id := by
  have hcurrent : D s.world.scope := by
    rcases h.above.current with e | hmem
    · rw [e]
      exact h.base
    · exact h.opened _ hmem
  intro id hid
  unfold State.touches at hid
  split at hid
  · cases hid
    exact hcurrent
  · cases hid
    exact hcurrent
  · cases hid
    exact hcurrent
  · cases hid
    exact h.opened _ (leaves_opened rfl)
  · cases hid
    exact h.opened _ (leaves_opened rfl)
  · cases hid

theorem Above.opened_next (ha : s.Above k) (hI : Imitation R D) (h : R ρ s.world.scopes s')
    (ho : ∀ id ∈ Frame.opened s.frames, D id) : ∀ id ∈ Frame.opened s.step.frames, D id := by
  intro id hid
  rcases ha.turned.opened id hid with hmem | hdead
  · exact ho id hmem
  · exact hI.fresh h hdead

theorem Ready.next (hr : s.Ready D k) (hI : Imitation R D) (h : R ρ s.world.scopes s') :
    s.step.Ready D k :=
  ⟨hr.above.next.1, hr.base, hr.above.opened_next hI h hr.opened⟩

/-- Two runs that have ended alike, in worlds of which the second one's store stands in for that of
the first one. -/
def EndsAlike (R : (ScopeId → ScopeId) → Scopes → Scopes → Prop) (r r' : Outcome × World) : Prop :=
  ∃ ρ s', R ρ r.2.scopes s' ∧ r'.2 = r.2.mirror ρ s' ∧ r'.1 = r.1.rename ρ

theorem Ready.run (hr : s.Ready D k) (hI : Imitation R D) (h : R ρ s.world.scopes s') (n : Nat) :
    Option.Rel (EndsAlike R) (run n s) (run n (s.mirror ρ s')) := by
  induction n generalizing s ρ s' with
  | zero => exact .none
  | succ n ih =>
    simp only [State.run, outcome?_mirror]
    cases ho : s.outcome? with
    | some o => exact .some ⟨ρ, s', h, rfl, rfl⟩
    | none =>
      obtain ⟨ρ', t', ht, he, -⟩ := hr.above.imitated hI h hr.touches
      simp only [Option.map_none, he]
      exact ih (hr.next hI h) ht

end

end State

/-! ## Calls -/

namespace World

open State Scopes

/-- Between calls, above the frames `k`: the second world is the first one with a store that stands
in for its own, and names may be bound in the current scope. -/
def Imitated (R : (ScopeId → ScopeId) → Scopes → Scopes → Prop) (D : ScopeId → Prop)
    (k : List Frame) (w w' : World) : Prop :=
  w.Sound k ∧ D w.scope ∧ ∃ ρ s', R ρ w.scopes s' ∧ w' = w.mirror ρ s'

section
variable {R : (ScopeId → ScopeId) → Scopes → Scopes → Prop} {D : ScopeId → Prop}
  {k : List Frame} {w w' : World} (hI : Imitation R D)
include hI

theorem Imitated.run (hw : w.Imitated R D k w') (x : Tree) (n : Nat) :
    Option.Rel (fun r r' : Outcome × World => (∃ ρ, r'.1 = r.1.rename ρ) ∧
      r'.2.sink = r.2.sink ∧ r'.2.input = r.2.input ∧
      (r.1 ≠ .exit → r.2.Imitated R D k r'.2)) (State.run n (w.start x)) (State.run n (w'.start x)) := by
  obtain ⟨hs, hD, ρ, s', h, rfl⟩ := hw
  obtain ⟨j, hj, ha⟩ := hs.start x
  have hcurrent := hs.current
  have hready : (w.start x).Ready D j := by
    refine ⟨ha, ?_, ?_⟩
    · rwa [hj, ← hcurrent]
    · simp [frames_start, Frame.opened]
  have hmirror : (w.mirror ρ s').start x = (w.start x).mirror ρ s' := by
    cases x <;> rfl
  have h' : R ρ (w.start x).world.scopes s' := by rwa [world_start]
  have hrun := hready.run hI h' n
  have hsettles : ∀ o w₁, State.run n (w.start x) = some (o, w₁) → o ≠ .exit → w.Settles k x w₁ :=
    fun _ _ => hs.settles
  rw [hmirror]
  generalize State.run n ((w.start x).mirror ρ s') = r' at *
  generalize State.run n (w.start x) = r at *
  cases hrun with
  | none => exact .none
  | @some r r' hends =>
    obtain ⟨o, w₁⟩ := r
    obtain ⟨o', w₁'⟩ := r'
    obtain ⟨ρ', t', ht, hw', ho'⟩ := hends
    simp only at ht hw' ho'
    subst hw' ho'
    refine .some ⟨⟨ρ', rfl⟩, rfl, rfl, ?_⟩
    intro hne
    have hsound := (hsettles o w₁ rfl hne).sound
    refine ⟨hsound, ?_, ρ', t', ht, rfl⟩
    rw [hsound.current, ← hcurrent]
    exact hD

theorem Imitated.execute (hw : w.Imitated R D k w') (n : Nat) (body : List Stmt) :
    Option.Rel (fun r r' : Ending Completion × World => r'.1 = r.1 ∧ r'.2.sink = r.2.sink ∧
      r'.2.input = r.2.input ∧ (r.1 ≠ .exited → r.2.Imitated R D k r'.2))
      (w.execute (State.run n) body) (w'.execute (State.run n) body) := by
  induction body generalizing w w' with
  | nil =>
    refine .some ⟨rfl, ?_⟩
    obtain ⟨hs, hD, ρ, s', h, rfl⟩ := hw
    exact ⟨rfl, rfl, fun _ => ⟨hs, hD, ρ, s', h, rfl⟩⟩
  | cons stmt rest ih =>
    have hrun := hw.run hI (.stmt stmt) n
    simp only [World.start] at hrun
    simp only [World.execute, Bind.bind]
    generalize State.run n ⟨.exec stmt, [], w⟩ = r at *
    generalize State.run n ⟨.exec stmt, [], w'⟩ = r' at *
    cases hrun with
    | none => exact .none
    | @some r r' hends =>
      obtain ⟨o, w₁⟩ := r
      obtain ⟨o', w₁'⟩ := r'
      obtain ⟨⟨ρ, he⟩, hsink, hinput, hnext⟩ := hends
      simp only at he hsink hinput hnext
      subst he
      cases o with
      | value v => exact ih (hnext (by simp))
      | flow f =>
        cases f with
        | returned v => exact .some ⟨rfl, hsink, hinput, fun _ => hnext (by simp)⟩
        | normal | broke | continued => exact ih (hnext (by simp))
      | error e => exact .some ⟨rfl, hsink, hinput, fun _ => hnext (by simp)⟩
      | exit => exact .some ⟨rfl, hsink, hinput, fun hne => absurd rfl hne⟩

theorem Imitated.evaluate (hw : w.Imitated R D k w') (n : Nat) (e : Expr) :
    Option.Rel (fun r r' : Ending Value × World =>
      (r'.1.map fun v => some v.render) = (r.1.map fun v => some v.render) ∧
      r'.2.sink = r.2.sink ∧ r'.2.input = r.2.input ∧
      (r.1 ≠ .exited → r.2.Imitated R D k r'.2))
      (w.evaluate (State.run n) e) (w'.evaluate (State.run n) e) := by
  have hrun := hw.run hI (.expr e) n
  simp only [World.start] at hrun
  simp only [World.evaluate, Bind.bind]
  generalize State.run n ⟨.eval e, [], w⟩ = r at *
  generalize State.run n ⟨.eval e, [], w'⟩ = r' at *
  cases hrun with
  | none => exact .none
  | @some r r' hends =>
    obtain ⟨o, w₁⟩ := r
    obtain ⟨o', w₁'⟩ := r'
    obtain ⟨⟨ρ, he⟩, hsink, hinput, hnext⟩ := hends
    simp only at he hsink hinput hnext
    subst he
    cases o with
    | value v => exact .some ⟨by simp [Ending.map], hsink, hinput, fun _ => hnext (by simp)⟩
    | flow f => exact .some ⟨rfl, hsink, hinput, fun _ => hnext (by simp)⟩
    | error e => exact .some ⟨rfl, hsink, hinput, fun _ => hnext (by simp)⟩
    | exit => exact .some ⟨rfl, hsink, hinput, fun hne => absurd rfl hne⟩

/-- A call in one of the two worlds takes as long as in the other, and is seen the same. -/
theorem Imitated.call (hw : w.Imitated R D k w') (n : Nat) (call : Line) :
    Option.Rel (fun r r' : Sight × World => r'.1 = r.1 ∧
      (r.1.ending ≠ .exited → r.2.Imitated R D k r'.2)) (w.call n call) (w'.call n call) := by
  cases call with
  | statements body =>
    have hrel := hw.execute hI n body
    simp only [World.call]
    generalize w.execute (State.run n) body = r at *
    generalize w'.execute (State.run n) body = r' at *
    cases hrel with
    | none => exact .none
    | @some r r' hends =>
      obtain ⟨ending, w₁⟩ := r
      obtain ⟨ending', w₁'⟩ := r'
      obtain ⟨he, hsink, hinput, hnext⟩ := hends
      simp only at he hsink hinput hnext
      refine .some ⟨by simp only [he, hsink, hinput], fun hne => hnext ?_⟩
      rintro rfl
      exact hne rfl
  | expression e =>
    have hrel := hw.evaluate hI n e
    simp only [World.call]
    generalize w.evaluate (State.run n) e = r at *
    generalize w'.evaluate (State.run n) e = r' at *
    cases hrel with
    | none => exact .none
    | @some r r' hends =>
      obtain ⟨ending, w₁⟩ := r
      obtain ⟨ending', w₁'⟩ := r'
      obtain ⟨he, hsink, hinput, hnext⟩ := hends
      simp only at he hsink hinput hnext
      refine .some ⟨by simp only [he, hsink, hinput], fun hne => hnext ?_⟩
      rintro rfl
      exact hne rfl

theorem Imitated.transcript (hw : w.Imitated R D k w') (calls : List Line) (sights : List Sight) :
    w.Transcript calls sights ↔ w'.Transcript calls sights := by
  constructor
  · intro hc
    induction hc generalizing w' with
    | nil => exact .nil
    | @cons w w₁ call calls sight sights hs hx hrest ih =>
      obtain ⟨n, hn⟩ := hs
      have hcall := hw.call hI n call
      rw [hn] at hcall
      generalize hn' : w'.call n call = r' at hcall
      cases hcall with
      | @some _ r' hends =>
        obtain ⟨sight', w₁'⟩ := r'
        obtain ⟨he, hnext⟩ := hends
        cases he
        refine .cons ⟨n, hn'⟩ hx ?_
        by_cases he : sight.ending = .exited
        · cases hx he
          cases hrest
          exact .nil
        · exact ih (hnext he)
  · intro hc
    induction hc generalizing w with
    | nil => exact .nil
    | @cons w' w₁' call calls sight sights hs hx hrest ih =>
      obtain ⟨n, hn⟩ := hs
      have hcall := hw.call hI n call
      rw [hn] at hcall
      generalize hn' : w.call n call = r at hcall
      cases hcall with
      | @some r _ hends =>
        obtain ⟨sight', w₁⟩ := r
        obtain ⟨he, hnext⟩ := hends
        cases he
        refine .cons ⟨n, hn'⟩ hx ?_
        by_cases he : sight.ending = .exited
        · cases hx he
          cases hrest
          exact .nil
        · exact ih (hnext he)

end

end World

end Script
