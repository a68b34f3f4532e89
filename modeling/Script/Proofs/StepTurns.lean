import Script.Proofs.ClosuresSound

/-!
# What a step does to the scopes

A step binds names, opens a scope, leaves the innermost one, or declares a
function. Opening a scope for a call may fail, and then the scope is left at once.
What this means for the slots in use follows from the store alone. Whatever a step
does to the frames, it does not look at those below the topmost.
-/

namespace Script

namespace Scopes

variable {s s' s'' : Scopes}

/-- Two stores that differ at most in what is bound. -/
structure Rebound (s s' : Scopes) : Prop extends SameShape s s' where
  captured : ∀ j, (s'.scope j).captured = (s.scope j).captured

theorem Rebound.refl (s : Scopes) : Rebound s s := ⟨.refl s, fun _ => rfl⟩

theorem Rebound.trans (h : Rebound s s') (h' : Rebound s' s'') : Rebound s s'' :=
  ⟨h.toSameShape.trans h'.toSameShape, fun j => (h'.captured j).trans (h.captured j)⟩

theorem rebound_modify (s : Scopes) (id : ScopeId) (f : Bindings → Bindings) :
    Rebound s (s.modify id fun scope => { scope with bindings := f scope.bindings }) :=
  ⟨.modify s id _ rfl rfl, scope_modify_part Scope.captured s id _ rfl⟩

theorem rebound_define (s : Scopes) (id : ScopeId) (name : String) (value : Option Value) :
    Rebound s (s.define id name value).2 := by
  unfold define
  split
  · exact .refl s
  · exact rebound_modify s id ((name, value) :: ·)

theorem rebound_assign (s : Scopes) (id : ScopeId) (name : String) (value : Value) :
    Rebound s (s.assign id name value).2 := by
  unfold assign
  split
  · exact .refl s
  · exact rebound_modify s _ (Bindings.set name value)

end Scopes

namespace World

open Scopes (Rebound)

theorem rebound_define (w : World) (name : Token) (value : Option Value) :
    Rebound w.scopes (w.define name value).2.scopes := by
  have h := w.scopes.rebound_define w.scope name.source value
  unfold define
  split <;> (rename_i he; rwa [he] at h)

theorem rebound_assign (w : World) (name : Token) (value : Value) :
    Rebound w.scopes (w.assign name value).2.scopes := by
  have h := w.scopes.rebound_assign w.scope name.source value
  unfold assign
  split <;> (rename_i he; rwa [he] at h)

theorem scope_define (w : World) (name : Token) (value : Option Value) :
    (w.define name value).2.scope = w.scope := by
  unfold define
  split <;> rfl

theorem rebound_bind (w : World) (params : List (Token × Value)) :
    Rebound w.scopes (w.bind params).2.scopes ∧ (w.bind params).2.scope = w.scope := by
  induction params generalizing w with
  | nil => exact ⟨.refl _, rfl⟩
  | cons p rest ih =>
    have hd := w.rebound_define p.1 (some p.2)
    have hs := w.scope_define p.1 (some p.2)
    unfold bind
    split
    · rename_i w' he
      rw [he] at hd hs
      obtain ⟨h, h'⟩ := ih w'
      exact ⟨hd.trans h, h'.trans hs⟩
    · rename_i e w' he
      rw [he] at hd hs
      exact ⟨hd, hs⟩

end World

/-! ## Turns -/

/-- `Turn w opened declares t`: the state `t` comes of the world `w`, in which the scopes `opened`
are open, by one step, which declares a function or not. -/
inductive World.Turn (w : World) (opened : List ScopeId) : Bool → State → Prop where
  | binds {t : State} (hs : w.scopes.Rebound t.world.scopes)
      (ho : Frame.opened t.frames = opened) : Turn w opened false t
  | opens {t : State} (parent : ScopeId)
      (hs : (w.scopes.push parent).2.Rebound t.world.scopes)
      (ho : Frame.opened t.frames = (w.scopes.push parent).1 :: opened) : Turn w opened false t
  | refuses {t : State} {scopes : Scopes} (parent : ScopeId)
      (hm : (w.scopes.push parent).2.Rebound scopes)
      (hs : t.world.scopes = scopes.release (w.scopes.push parent).1)
      (ho : Frame.opened t.frames = opened) : Turn w opened false t
  | leaves {t : State} {id : ScopeId} (hs : t.world.scopes = w.scopes.release id)
      (ho : opened = id :: Frame.opened t.frames) : Turn w opened false t
  | declares {t : State} (hs : (w.scopes.capture w.scope).Rebound t.world.scopes)
      (ho : Frame.opened t.frames = opened) : Turn w opened true t

/-- Whether the next step declares a function. -/
def State.declares : State → Bool
  | ⟨.exec (.func _ _ _), _, _⟩ => true
  | _ => false

namespace State

open Scopes World

variable {w : World} {k : List Frame}

theorem turn_same {c : Control} {j : List Frame} (hj : Frame.opened j = Frame.opened k) :
    w.Turn (Frame.opened k) false ⟨c, j, w⟩ :=
  .binds (.refl _) hj

theorem ofResult_turn (r : Except RuntimeError Value) :
    w.Turn (Frame.opened k) false (ofResult k w r) := by
  cases r with
  | ok v => exact turn_same rfl
  | error e => exact turn_same rfl

theorem after_turn {c : Control} {r : Except RuntimeError Unit × World}
    (hr : w.scopes.Rebound r.2.scopes) : w.Turn (Frame.opened k) false (after k c r) := by
  obtain ⟨r, w'⟩ := r
  cases r with
  | ok u => exact .binds hr rfl
  | error e => exact .binds hr rfl

theorem eval_turn (e : Expr) : w.Turn (Frame.opened k) false (eval k w e) := by
  cases e with
  | reference name => exact ofResult_turn _
  | _ => exact turn_same rfl

theorem exec_turn (s : Stmt) :
    w.Turn (Frame.opened k) (declares ⟨.exec s, k, w⟩) (exec k w s) := by
  cases s with
  | block body => exact .opens w.scope (.refl _) rfl
  | func name params body =>
    have hd := (w.close name params body).2.rebound_define name (w.close name params body).1
    simp only [exec]
    rcases hr : (w.close name params body).2.define name (some (w.close name params body).1) with
      ⟨_ | _, w'⟩ <;> rw [hr] at hd <;> exact .declares hd rfl
  | ret keyword value => cases value <;> exact turn_same rfl
  | declare name value =>
    cases value with
    | none => exact after_turn (w.rebound_define name none)
    | some e => exact turn_same rfl
  | _ => exact turn_same rfl

theorem callFunction_turn (params : List Token) (body : List Stmt) (closure : ScopeId)
    (args : List Value) :
    w.Turn (Frame.opened k) false (callFunction k w params body closure args) := by
  obtain ⟨hb, hs⟩ := (w.enter closure).rebound_bind (params.zip args)
  simp only [callFunction]
  split
  · rename_i w' he
    rw [he] at hb hs
    refine .opens closure hb ?_
    rw [hs]
    rfl
  · rename_i e w' he
    rw [he] at hb hs
    refine .refuses closure hb ?_ rfl
    rw [hs]
    rfl

theorem call_turn (paren : Token) (callee : Value) (args : List Value) :
    w.Turn (Frame.opened k) false (call k w paren callee args) := by
  cases callee with
  | nil | bool | number | text => exact turn_same rfl
  | callable identity c =>
    simp only [call]
    split
    · exact turn_same rfl
    · split
      · exact turn_same rfl
      · cases c with
        | function name params body closure => exact callFunction_turn params body closure args
        | native n =>
          obtain ⟨effect, w', he, hs, -, -⟩ := perform_plain w args n.action
          have hb : w.scopes.Rebound w'.scopes := hs ▸ .refl _
          simp only [he]
          cases effect <;> exact .binds hb rfl

theorem nextArgument_turn (paren : Token) (callee : Value) (done : List Value) (args : List Expr) :
    w.Turn (Frame.opened k) false (nextArgument k w paren callee done args) := by
  cases args with
  | nil => exact call_turn paren callee done.reverse
  | cons arg args => exact turn_same rfl

theorem resume_turn {f : Frame} (hf : f.takesValue = true) (v : Value) :
    w.Turn (Frame.opened (f :: k)) false (resume k w v f) := by
  have hk : Frame.opened (f :: k) = Frame.opened k :=
    Frame.opened_cons (by cases f <;> first | rfl | cases hf) k
  rw [hk]
  cases f with
  | assign name => exact after_turn (w.rebound_assign name v)
  | right left op => exact ofResult_turn _
  | sign op => exact ofResult_turn _
  | decide op right =>
    simp only [resume]
    split <;> exact turn_same rfl
  | callee paren args => exact nextArgument_turn paren v [] args
  | argument paren callee done args => exact nextArgument_turn paren callee (v :: done) args
  | branch body otherwise =>
    simp only [resume]
    split
    · exact turn_same rfl
    · cases otherwise <;> exact turn_same rfl
  | declare name => exact after_turn (w.rebound_define name (some v))
  | test loop =>
    simp only [resume]
    split <;> exact turn_same rfl
  | left | discard | giveBack | stepped => exact turn_same rfl
  | round | sequence | leave | endCall => cases hf

theorem proceed_turn (f : Frame) (flow : Flow) (hf : f.takesValue = false) :
    w.Turn (Frame.opened (f :: k)) false (proceed k w flow f) := by
  cases f with
  | round loop =>
    cases flow with
    | broke | returned => exact turn_same rfl
    | normal | continued =>
      simp only [proceed]
      split <;> exact turn_same rfl
  | sequence rest =>
    cases flow with
    | normal => cases rest <;> exact turn_same rfl
    | broke | continued | returned => exact turn_same rfl
  | leave left back => exact .leaves rfl rfl
  | endCall => exact .binds (.refl _) rfl
  | _ => cases hf

theorem unwind_turn (f : Frame) (e : RuntimeError) :
    w.Turn (Frame.opened (f :: k)) false (unwind k w e f) := by
  cases f with
  | leave left back => exact .leaves rfl rfl
  | endCall => exact .binds (.refl _) rfl
  | _ => exact turn_same rfl

theorem step_turn {s : State} (hf : s.Fitting) :
    s.world.Turn (Frame.opened s.frames) s.declares s.step := by
  obtain ⟨c, k, w⟩ := s
  obtain ⟨b, hb, hk⟩ := hf
  cases c with
  | eval e => exact eval_turn e
  | exec s => exact exec_turn s
  | value v =>
    cases hb
    cases k with
    | nil => exact turn_same rfl
    | cons f k => exact resume_turn hk.1 v
  | flow flow =>
    cases hb
    cases k with
    | nil => exact turn_same rfl
    | cons f k => exact proceed_turn f flow hk.1
  | raise e =>
    cases k with
    | nil => exact turn_same rfl
    | cons f k => exact unwind_turn f e
  | exit => exact turn_same rfl

/-! ## Frames below -/

/-- The same state, with more frames below its own. -/
def onto (k : List Frame) (s : State) : State := ⟨s.control, s.frames ++ k, s.world⟩

variable {j : List Frame}

theorem ofResult_onto (r : Except RuntimeError Value) :
    ofResult (j ++ k) w r = (ofResult j w r).onto k := by
  cases r <;> rfl

theorem after_onto (c : Control) (r : Except RuntimeError Unit × World) :
    after (j ++ k) c r = (after j c r).onto k := by
  obtain ⟨_ | _, w'⟩ := r <;> rfl

theorem eval_onto (e : Expr) : eval (j ++ k) w e = (eval j w e).onto k := by
  cases e with
  | reference name => exact ofResult_onto _
  | _ => rfl

theorem exec_onto (s : Stmt) : exec (j ++ k) w s = (exec j w s).onto k := by
  cases s with
  | func name params body => exact after_onto _ _
  | ret keyword value => cases value <;> rfl
  | declare name value =>
    cases value with
    | none => exact after_onto _ _
    | some e => rfl
  | _ => rfl

theorem call_onto (paren : Token) (callee : Value) (args : List Value) :
    call (j ++ k) w paren callee args = (call j w paren callee args).onto k := by
  cases callee with
  | nil | bool | number | text => rfl
  | callable identity c =>
    simp only [call]
    split
    · rfl
    · split
      · rfl
      · cases c with
        | function name params body closure =>
          simp only [callFunction]
          split <;> rfl
        | native n =>
          simp only []
          split <;> rfl

theorem nextArgument_onto (paren : Token) (callee : Value) (done : List Value) (args : List Expr) :
    nextArgument (j ++ k) w paren callee done args =
      (nextArgument j w paren callee done args).onto k := by
  cases args with
  | nil => exact call_onto paren callee done.reverse
  | cons arg args => rfl

theorem resume_onto (v : Value) (f : Frame) :
    resume (j ++ k) w v f = (resume j w v f).onto k := by
  cases f with
  | assign | declare => exact after_onto _ _
  | right | sign => exact ofResult_onto _
  | callee | argument => exact nextArgument_onto _ _ _ _
  | branch body otherwise =>
    simp only [resume]
    split
    · rfl
    · cases otherwise <;> rfl
  | decide | test =>
    simp only [resume]
    split <;> rfl
  | _ => rfl

theorem proceed_onto (flow : Flow) (f : Frame) :
    proceed (j ++ k) w flow f = (proceed j w flow f).onto k := by
  cases f with
  | round loop =>
    cases flow with
    | broke | returned => rfl
    | normal | continued =>
      simp only [proceed]
      split <;> rfl
  | sequence rest =>
    cases flow with
    | normal => cases rest <;> rfl
    | broke | continued | returned => rfl
  | _ => rfl

theorem unwind_onto (e : RuntimeError) (f : Frame) :
    unwind (j ++ k) w e f = (unwind j w e f).onto k := by
  cases f <;> rfl

/-- As long as a run has not ended, frames below make no difference to a step. -/
theorem step_onto {s : State} (h : s.outcome? = none) (k : List Frame) :
    (s.onto k).step = s.step.onto k := by
  obtain ⟨c, j, w⟩ := s
  cases c with
  | eval e => exact eval_onto e
  | exec s => exact exec_onto s
  | value v =>
    cases j with
    | nil => cases h
    | cons f j => exact resume_onto v f
  | flow flow =>
    cases j with
    | nil => cases h
    | cons f j => exact proceed_onto flow f
  | raise e =>
    cases j with
    | nil => cases h
    | cons f j => exact unwind_onto e f
  | exit => cases h

theorem step_ended {s : State} {o : Outcome} (h : s.outcome? = some o) : s.step = s := by
  obtain ⟨c, k, w⟩ := s
  cases c <;> cases k <;> first | rfl | cases h

end State

/-! ## Slots in use -/

namespace Scopes

variable {s s' : Scopes} {opened : List ScopeId}

theorem release_parent (s : Scopes) (id j : ScopeId) :
    ((s.release id).scope j).parent = (s.scope j).parent := by
  simp only [release]
  split
  · rfl
  · exact scope_modify_part Scope.parent s id _ rfl j

theorem release_captured (s : Scopes) (id j : ScopeId) :
    ((s.release id).scope j).captured = (s.scope j).captured := by
  simp only [release]
  split
  · rfl
  · exact scope_modify_part Scope.captured s id _ rfl j

theorem Pushed.captured {parent id j : ScopeId} (h : Pushed s s' parent id)
    (hj : (s'.scope j).captured = true) : (s.scope j).captured = true := by
  by_cases e : j = id
  · rw [e, h.fresh] at hj
    cases hj
  · rwa [h.other j e] at hj

/-- A scope that was pushed and is left at once leaves no trace. -/
theorem Tidy.release_pushed (h : s.Tidy opened) (parent : ScopeId)
    (hm : (s.push parent).2.Rebound s') (j : ScopeId) :
    (s'.release (s.push parent).1).Live j ↔ s.Live j := by
  have hpush := push_pushed s parent h.spare_inside
  have hdead := push_not_live s parent h.spare_free
  generalize (s.push parent).1 = new at *
  generalize (s.push parent).2 = pushed at *
  have hnew : s'.Live new := (hm.live_iff new).mpr (hpush.live_iff.mpr (.inl rfl))
  have hcap : (s'.scope new).captured = false := by rw [hm.captured, hpush.fresh]
  have hr : s'.recycles = true := by rw [hm.recycles, hpush.recycles, h.recycles]
  have hg : new ≠ .global := fun e => hdead (e ▸ h.root_live)
  rw [(release_released hr hg hcap hnew).live_iff, hm.live_iff, hpush.live_iff]
  constructor
  · rintro ⟨hne, e | hj⟩
    · exact absurd e hne
    · exact hj
  · intro hj
    exact ⟨fun e => hdead (e ▸ hj), .inr hj⟩

theorem Tidy.release_live {id : ScopeId} (h : s.Tidy (id :: opened)) (j : ScopeId) :
    (s.release id).Live j ↔ s.Live j ∧ (j = id → (s.scope id).captured = true) := by
  have hlive : s.Live id := h.opened_live id (by simp)
  have hg : id ≠ .global := fun e => h.opened_inner (e ▸ by simp)
  cases hc : (s.scope id).captured with
  | true =>
    rw [release_eq (.inr (.inr (.inl hc)))]
    simp
  | false =>
    rw [(release_released h.recycles hg hc hlive).live_iff]
    simp [and_comm]

theorem Tidy.capture_captured (h : s.Tidy opened) {id : ScopeId} {l : List ScopeId}
    (hl : s.Around id l) (hid : s.Live id) (j : ScopeId) :
    ((s.capture id).scope j).captured = true ↔ (s.scope j).captured = true ∨ j ∈ l :=
  captureWithin_captured hl (fun i hi => (h.around_live hl hid i hi).1) (h.around_pairwise hl) _
    (h.around_length hl hid) j

/-- Every free slot is one that is handed out again. -/
def Covered (s : Scopes) : Prop :=
  ∀ id : ScopeId, id.slot < s.slots.size → (s.scope id).free = true → id ∈ s.spare

theorem Covered.sameShape (h : s.Covered) (hs : SameShape s s') : s'.Covered := by
  intro id hid hf
  rw [hs.size] at hid
  rw [hs.free] at hf
  rw [hs.spare]
  exact h id hid hf

theorem Covered.push (h : s.Covered) (hs : ∀ id ∈ s.spare, id.slot < s.slots.size)
    (parent : ScopeId) : (s.push parent).2.Covered := by
  intro id hid hf
  have hpush := push_pushed s parent hs
  have hne : id ≠ (s.push parent).1 := by
    rintro rfl
    rw [hpush.fresh] at hf
    cases hf
  rw [hpush.other id hne] at hf
  have hm := h id ((hpush.within id hid).resolve_left hne) hf
  rw [spare_push]
  revert hne
  unfold Scopes.push
  cases he : s.spare with
  | nil =>
    rw [he] at hm
    cases hm
  | cons a rest =>
    intro hne
    rw [he] at hm
    exact List.mem_of_ne_of_mem hne hm

theorem Covered.release (h : s.Covered) (id : ScopeId) : (s.release id).Covered := by
  simp only [Scopes.release]
  split
  · exact h
  · intro j hj hf
    by_cases e : j = id
    · simp [e]
    · have hj' := scope_modify_ne (s := s)
        (fun scope => { scope with bindings := [], free := true }) e
      have hfree : (s.scope j).free = true := (congrArg Scope.free hj').symm.trans hf
      exact List.mem_cons_of_mem id (h j (by simpa using hj) hfree)

/-- The number of scopes in use is that of the slots that hold one. -/
theorem live_eq_length {ids : List ScopeId} (hnd : s.spare.Nodup)
    (hspare : ∀ id : ScopeId, id ∈ s.spare ↔ id.slot < s.slots.size ∧ (s.scope id).free = true)
    (hn : ids.Nodup) (hids : ∀ id, id ∈ ids ↔ s.Live id) : s.live = ids.length := by
  have hinj : Function.Injective ScopeId.slot := fun i j e => by cases i; cases j; simp_all
  have hall : (ids ++ s.spare).Nodup := by
    refine List.nodup_append.mpr ⟨hn, hnd, ?_⟩
    rintro i hi _ hj rfl
    have := ((hids i).mp hi).2
    rw [((hspare i).mp hj).2] at this
    cases this
  have hperm : List.Perm ((ids ++ s.spare).map ScopeId.slot) (List.range s.slots.size) := by
    refine (List.perm_ext_iff_of_nodup (hall.map hinj) List.nodup_range).mpr fun n => ?_
    rw [List.mem_map, List.mem_range]
    constructor
    · rintro ⟨id, hid, rfl⟩
      rcases List.mem_append.mp hid with hid | hid
      · exact ((hids id).mp hid).1
      · exact ((hspare id).mp hid).1
    · intro hlt
      refine ⟨⟨n⟩, List.mem_append.mpr ?_, rfl⟩
      cases hf : (s.scope ⟨n⟩).free with
      | true => exact .inr ((hspare ⟨n⟩).mpr ⟨hlt, hf⟩)
      | false => exact .inl ((hids ⟨n⟩).mpr ⟨hlt, hf⟩)
  have hlen := hperm.length_eq
  simp only [List.length_map, List.length_append, List.length_range] at hlen
  unfold live
  omega

theorem Covered.live_eq (h : s.Covered) (ht : s.Tidy opened) {ids : List ScopeId}
    (hn : ids.Nodup) (hids : ∀ id, id ∈ ids ↔ s.Live id) : s.live = ids.length := by
  refine live_eq_length ht.spare_nodup (fun id => ?_) hn hids
  exact ⟨fun hm => ⟨ht.spare_inside id hm, ht.spare_free id hm⟩, fun ⟨hlt, hf⟩ => h id hlt hf⟩

end Scopes

/-! ## What a turn keeps -/

/-- What a step can do to the scopes in use, when the scopes `opened` are open: it ends open ones,
it begins the innermost one, and it keeps those around a declaration. -/
structure World.Turned (w : World) (opened : List ScopeId) (declares : Bool) (t : State) :
    Prop where
  parent : ∀ j, w.scopes.Live j → (t.world.scopes.scope j).parent = (w.scopes.scope j).parent
  ends : ∀ j, w.scopes.Live j → t.world.scopes.Live j ∨ j ∈ opened
  begins : ∀ j, t.world.scopes.Live j → w.scopes.Live j ∨
    (∃ parent, (w.scopes.push parent).1 = j) ∧ Frame.opened t.frames = j :: opened ∧
      (t.world.scopes.scope j).captured = false
  captured : ∀ j, (t.world.scopes.scope j).captured = true → (w.scopes.scope j).captured = true ∨
    declares = true ∧ ∃ l, w.scopes.Around w.scope l ∧ j ∈ l
  opened : ∀ j ∈ Frame.opened t.frames, j ∈ opened ∨ ¬ w.scopes.Live j

theorem World.Turn.turned {w : World} {opened below : List ScopeId} {declares : Bool} {t : State}
    (ht : w.Turn opened declares t) (h : w.scopes.Tidy (opened ++ below))
    (hw : w.scopes.Live w.scope) : w.Turned opened declares t := by
  cases ht with
  | binds hs ho => exact {
      parent := fun j _ => hs.parent j
      ends := fun j hj => .inl ((hs.live_iff j).mpr hj)
      begins := fun j hj => .inl ((hs.live_iff j).mp hj)
      captured := fun j hj => .inl (hs.captured j ▸ hj)
      opened := fun j hj => .inl (ho ▸ hj) }
  | opens parent hs ho =>
    have hpush := Scopes.push_pushed w.scopes parent h.spare_inside
    have hdead := Scopes.push_not_live w.scopes parent h.spare_free
    exact {
      parent := fun j hj => by
        rw [hs.parent, hpush.other j fun e => hdead (e ▸ hj)]
      ends := fun j hj => .inl ((hs.live_iff j).mpr (hpush.live_iff.mpr (.inr hj)))
      begins := fun j hj => by
        rcases hpush.live_iff.mp ((hs.live_iff j).mp hj) with rfl | hj
        · exact .inr ⟨⟨parent, rfl⟩, ho, by rw [hs.captured, hpush.fresh]⟩
        · exact .inl hj
      captured := fun j hj => by
        rw [hs.captured] at hj
        exact .inl (hpush.captured hj)
      opened := fun j hj => by
        rw [ho] at hj
        rcases List.mem_cons.mp hj with rfl | hj
        · exact .inr hdead
        · exact .inl hj }
  | @refuses _ scopes parent hm hs ho =>
    have hpush := Scopes.push_pushed w.scopes parent h.spare_inside
    have hdead := Scopes.push_not_live w.scopes parent h.spare_free
    have hlive := h.release_pushed parent hm
    exact {
      parent := fun j hj => by
        rw [hs, Scopes.release_parent, hm.parent, hpush.other j fun e => hdead (e ▸ hj)]
      ends := fun j hj => .inl (by rw [hs]; exact (hlive j).mpr hj)
      begins := fun j hj => .inl ((hlive j).mp (hs ▸ hj))
      captured := fun j hj => by
        rw [hs, Scopes.release_captured, hm.captured] at hj
        exact .inl (hpush.captured hj)
      opened := fun j hj => .inl (ho ▸ hj) }
  | @leaves _ id hs ho =>
    rw [ho, List.cons_append] at h
    have hlive := h.release_live
    exact {
      parent := fun j _ => by rw [hs, Scopes.release_parent]
      ends := fun j hj => by
        by_cases e : j = id
        · exact .inr (by simp [ho, e])
        · exact .inl (by rw [hs]; exact (hlive j).mpr ⟨hj, fun e' => absurd e' e⟩)
      begins := fun j hj => .inl ((hlive j).mp (hs ▸ hj)).1
      captured := fun j hj => .inl (by rwa [hs, Scopes.release_captured] at hj)
      opened := fun j hj => .inl (by simp [ho, hj]) }
  | declares hs ho =>
    obtain ⟨l, hl⟩ := h.rooted w.scope hw
    have hshape := Scopes.captureWithin_shape w.scopes.slots.size w.scopes w.scope
    exact {
      parent := fun j _ => (hs.parent j).trans (hshape.parent j)
      ends := fun j hj => .inl ((hs.live_iff j).mpr ((hshape.live_iff j).mpr hj))
      begins := fun j hj => .inl ((hshape.live_iff j).mp ((hs.live_iff j).mp hj))
      captured := fun j hj => by
        rw [hs.captured] at hj
        rcases (h.capture_captured hl hw j).mp hj with hj | hj
        · exact .inl hj
        · exact .inr ⟨rfl, l, hl, hj⟩
      opened := fun j hj => .inl (ho ▸ hj) }

theorem World.Turn.covered {w : World} {opened : List ScopeId} {declares : Bool} {t : State}
    (ht : w.Turn opened declares t) (h : w.scopes.Covered)
    (hs : ∀ id ∈ w.scopes.spare, id.slot < w.scopes.slots.size) : t.world.scopes.Covered := by
  cases ht with
  | binds hb => exact h.sameShape hb.toSameShape
  | opens parent hb => exact (h.push hs parent).sameShape hb.toSameShape
  | refuses parent hb he =>
    rw [he]
    exact ((h.push hs parent).sameShape hb.toSameShape).release _
  | leaves he =>
    rw [he]
    exact h.release _
  | declares hb =>
    exact (h.sameShape (Scopes.captureWithin_shape _ _ _)).sameShape hb.toSameShape

end Script
