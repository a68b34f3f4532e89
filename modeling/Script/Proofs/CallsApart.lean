import Script.Proofs.CallsBalanced
import Script.Proofs.VeiledScopes

/-!
# Calls are apart from what no function keeps

A call runs in a scope inside one that is kept, and what is around a kept scope is
kept as well. So the scopes in use that no function keeps are out of its reach: it
leaves them as they are, and what it does is the same whatever they bind and
whichever scope it is made in. The call is run side by side with the same call
under a veil that lies over all of these scopes.
-/

namespace Script

namespace Scopes

variable {β : Veil} {s : Scopes}

/-- In use, and not kept by any function. -/
def Loose (s : Scopes) (id : ScopeId) : Prop := s.Live id ∧ (s.scope id).captured = false

instance (s : Scopes) (id : ScopeId) : Decidable (s.Loose id) :=
  inferInstanceAs (Decidable ((_ ∧ _) ∧ _))

theorem Loose.not_captured {id : ScopeId} (h : s.Loose id) : (s.scope id).captured ≠ true := by
  simp [h.2]

/-- The veil that lies over the loose scopes, and gives them these bindings. -/
def cover (s : Scopes) (bindings : ScopeId → Bindings) : Veil :=
  fun id => if s.Loose id then some (bindings id) else none

theorem cover_ne_none (s : Scopes) (bindings : ScopeId → Bindings) (id : ScopeId) :
    s.cover bindings id ≠ none ↔ s.Loose id := by
  simp [cover]

theorem Tidy.spare {opened : List ScopeId} (h : s.Tidy opened) :
    ∀ id ∈ s.spare, id.slot < s.slots.size ∧ (s.scope id).free = true :=
  fun id hid => ⟨h.spare_inside id hid, h.spare_free id hid⟩

/-- Since `s`, the scopes under the veil have stayed in use, loose, and in their place. -/
def Spares (β : Veil) (s s' : Scopes) : Prop :=
  ∀ id, β id ≠ none → s'.Loose id ∧ (s'.scope id).parent = (s.scope id).parent

theorem veil_self (h : ∀ id b, β id = some b → b = (s.scope id).bindings) : s.veil β = s := by
  have hslots : s.slots.mapIdx (fun i scope => scope.veil (β ⟨i⟩)) = s.slots := by
    refine Array.ext (by simp) fun i hi hi' => ?_
    rw [Array.getElem_mapIdx]
    cases hβ : β ⟨i⟩ with
    | none => rfl
    | some b =>
      have hb := h ⟨i⟩ b hβ
      rw [scope_eq, Array.getElem?_eq_getElem hi'] at hb
      rw [hb]
      rfl
  rw [veil, hslots]

end Scopes

theorem Scope.veil_eq {a b : Scope} (hparent : a.parent = b.parent)
    (hcaptured : a.captured = b.captured) (hfree : a.free = b.free) :
    a.veil (some b.bindings) = b := by
  cases a
  cases b
  simp_all [Scope.veil]

theorem World.elsewhere_own (w : World) :
    w.elsewhere (w.scopes.cover fun id => (w.scopes.scope id).bindings) w.scope = w := by
  rw [elsewhere, Scopes.veil_self]
  intro id b hb
  unfold Scopes.cover at hb
  split at hb
  · exact (Option.some.inj hb).symm
  · cases hb

namespace State

open Scopes World

variable {β : Veil} {scopes : Scopes} {left back here : ScopeId} {k : List Frame} {s t : State}

/-! ## Inside of the call -/

/-- The state is one of a function's body, which runs in the scope `left` and was called when the
scopes were `scopes`: nothing that is open since then, and nothing around it, is under the veil. -/
structure Inside (β : Veil) (scopes : Scopes) (left back : ScopeId) (k : List Frame) (s : State) :
    Prop where
  above : s.Above (.leave left back :: k)
  spares : scopes.Spares β s.world.scopes
  outward : ∀ id parent, s.world.scopes.Live id → β id = none →
    (s.world.scopes.scope id).parent = some parent → β parent = none
  apart : ∀ id ∈ left :: Frame.opened s.frames, β id = none

/-- The innermost of the scopes that are open is one that is open since the call. -/
theorem Inside.head (h : Inside β scopes left back k s) :
    β ((Frame.opened (s.frames ++ .leave left back :: k)).headD .global) = none := by
  refine h.apart _ ?_
  rw [Frame.opened_append]
  cases Frame.opened s.frames <;> simp [Frame.opened]

theorem Inside.clear (h : Inside β scopes left back k s) : s.world.Clear β where
  live id hid := (h.spares id hid).1.1
  outward id parent hid hβ hp :=
    ⟨h.above.sound.world.store.tidy.parent_live id parent hid hp, h.outward id parent hid hβ hp⟩
  current := by
    have hcurrent : s.world.scope = _ := h.above.sound.world.current
    rw [hcurrent]
    exact h.head
  current_live := h.above.sound.world.scope_live
  spare := h.above.sound.world.store.tidy.spare

theorem Inside.next (h : Inside β scopes left back k s) :
    Inside β scopes left back k s.step := by
  have ht := h.above.turned
  have hspares : scopes.Spares β s.step.world.scopes := by
    intro id hid
    obtain ⟨hloose, hparent⟩ := h.spares id hid
    have hlive := (ht.ends id hloose.1).resolve_right fun ho =>
      hid (h.apart id (List.mem_cons_of_mem _ ho))
    refine ⟨⟨hlive, Bool.eq_false_iff.mpr fun hc => ?_⟩, (ht.parent id hloose.1).trans hparent⟩
    rcases ht.captured id hc with hc | ⟨-, l, hl, hmem⟩
    · exact hloose.not_captured hc
    · -- a declaration keeps what is around it, and that is not under the veil
      have hclear := h.clear
      exact hid (hclear.toClear.around hl hclear.current_live hclear.current id hmem)
  refine ⟨h.above.next.1, hspares, fun id parent hid hβ hp => ?_, ?_⟩
  · rcases ht.begins id hid with hlive | ⟨-, ho, -⟩
    · exact h.outward id parent hlive hβ ((ht.parent id hlive).symm.trans hp)
    · -- a new scope is inside the current one or inside one that is kept
      have hnested := h.above.next.1.sound.world.store.tidy.nested
      rw [onto, Frame.opened_append, ho, List.cons_append, ← Frame.opened_append] at hnested
      obtain ⟨⟨parent', hp', hor⟩, -⟩ := hnested
      obtain rfl : parent' = parent := Option.some.inj (hp'.symm.trans hp)
      rcases hor with rfl | hc
      · exact h.head
      · by_contra hne
        exact (hspares _ hne).1.not_captured hc
  · intro id hid
    rcases List.mem_cons.mp hid with rfl | hid
    · exact h.apart id (by simp)
    · rcases ht.opened id hid with ho | ho
      · exact h.apart id (List.mem_cons_of_mem _ ho)
      · by_contra hne
        exact ho (h.spares id hne).1.1

/-- The scope of the body is not under the veil, so leaving it does nothing to those that are. -/
theorem Inside.leave {c : Control} {w : World} (h : Inside β scopes left back k ⟨c, [], w⟩) :
    scopes.Spares β (w.leave left back).scopes := by
  intro id hid
  obtain ⟨⟨hlive, hcap⟩, hparent⟩ := h.spares id hid
  have hne : id ≠ left := by
    rintro rfl
    exact hid (h.apart id (by simp))
  have htidy : w.scopes.Tidy (left :: Frame.opened k) := h.above.sound.world.store.tidy
  refine ⟨⟨(htidy.release_live id).mpr ⟨hlive, fun e => absurd e hne⟩, ?_⟩, ?_⟩
  · exact (Scopes.release_captured w.scopes left id).trans hcap
  · exact (Scopes.release_parent w.scopes left id).trans hparent

/-! ## Side by side -/

/-- A state of a call, and the state at the same moment of the same call that was made under a veil
and in the scope `here`. -/
inductive Beside (β : Veil) (scopes : Scopes) (here : ScopeId) : State → State → Prop where
  | inside {left back : ScopeId} {k : List Frame} {s : State} (h : Inside β scopes left back k s) :
      Beside β scopes here (s.onto [.leave left back, .endCall])
        ((s.veil β).onto [.leave left here, .endCall])
  | returned {f : Flow} {w : World} (h : scopes.Spares β w.scopes) :
      Beside β scopes here ⟨.flow f, [.endCall], w⟩ ⟨.flow f, [.endCall], w.elsewhere β here⟩
  | failed {e : RuntimeError} {w : World} (h : scopes.Spares β w.scopes) :
      Beside β scopes here ⟨.raise e, [.endCall], w⟩ ⟨.raise e, [.endCall], w.elsewhere β here⟩
  | ended {c : Control} {w : World} (h : scopes.Spares β w.scopes)
      (ho : (outcome? ⟨c, [], w⟩).isSome = true) :
      Beside β scopes here ⟨c, [], w⟩ ⟨c, [], w.elsewhere β here⟩

theorem Inside.step (h : Inside β scopes left back k s) (here : ScopeId) :
    Beside β scopes here (s.onto [.leave left back, .endCall]).step
      ((s.veil β).onto [.leave left here, .endCall]).step := by
  cases ho : s.outcome? with
  | none =>
    have hbare : ∀ id ∈ Frame.opened s.frames, β id = none :=
      fun id hid => h.apart id (List.mem_cons_of_mem _ hid)
    rw [step_onto ho, step_onto (by rw [outcome_veil, ho]), step_veil h.clear hbare]
    exact .inside h.next
  | some o =>
    have hleft : β left = none := h.apart left (by simp)
    obtain ⟨c, j, w⟩ := s
    cases c with
    | exit => exact .inside h
    | eval | exec => cases ho
    | value v =>
      cases j with
      | cons f j => cases ho
      | nil =>
        -- the body of a function comes to no value
        obtain ⟨b, hb, hk⟩ := h.above.fitting
        cases hb
        cases hk.1
    | flow f =>
      cases j with
      | cons _ j => cases ho
      | nil =>
        rw [show State.step (onto [.leave left here, .endCall] (veil β ⟨.flow f, [], w⟩)) =
          ⟨.flow f, [.endCall], (w.veil β).leave left here⟩ from rfl, leave_veil hleft back here]
        exact .returned h.leave
    | raise e =>
      cases j with
      | cons _ j => cases ho
      | nil =>
        rw [show State.step (onto [.leave left here, .endCall] (veil β ⟨.raise e, [], w⟩)) =
          ⟨.raise e, [.endCall], (w.veil β).leave left here⟩ from rfl, leave_veil hleft back here]
        exact .failed h.leave

theorem Beside.step (h : Beside β scopes here s t) : Beside β scopes here s.step t.step := by
  cases h with
  | inside h => exact h.step here
  | returned h => exact .ended h rfl
  | failed h => exact .ended h rfl
  | @ended c w h ho =>
    cases c with
    | eval | exec => cases ho
    | _ => exact .ended h ho

/-- How a call has ended, and how it has when it was made under a veil and in the scope `here`: the
worlds differ in the veil only. A program that ends in the middle of the call does not go back. -/
structure Alike (β : Veil) (here : ScopeId) (r r' : Outcome × World) : Prop where
  outcome : r'.1 = r.1
  world : ∃ back, r'.2 = r.2.elsewhere β back ∧ (r.1 ≠ .exit → back = here)

theorem Beside.outcome (h : Beside β scopes here s t) : t.outcome? = s.outcome? := by
  cases h with
  | @inside _ _ _ s _ =>
    obtain ⟨c, j, w⟩ := s
    cases c <;> cases j <;> rfl
  | returned | failed => rfl
  | @ended c => cases c <;> rfl

theorem Beside.ends (h : Beside β scopes here s t) {o : Outcome} (ho : s.outcome? = some o) :
    Alike β here (o, s.world) (o, t.world) := by
  cases h with
  | @inside _ _ _ s _ =>
    refine ⟨rfl, s.world.scope, rfl, fun hne => ?_⟩
    have hframes := Idle.frames ⟨o, ho, hne⟩
    simp [onto] at hframes
  | returned | failed => cases ho
  | ended => exact ⟨rfl, here, rfl, fun _ => rfl⟩

theorem Beside.run (h : Beside β scopes here s t) (n : Nat) :
    Option.Rel (Alike β here) (run n s) (run n t) := by
  induction n generalizing s t with
  | zero => exact .none
  | succ n ih =>
    unfold State.run
    rw [h.outcome]
    cases ho : s.outcome? with
    | none => exact ih h.step
    | some o => exact .some (h.ends ho)

theorem Beside.spares (h : Beside β scopes here s t) : scopes.Spares β s.world.scopes := by
  cases h with
  | inside h => exact h.spares
  | returned h | failed h | ended h => exact h

theorem Beside.run_spares (h : Beside β scopes here s t) {n : Nat} {o : Outcome} {w : World}
    (hrun : State.run n s = some (o, w)) : scopes.Spares β w.scopes := by
  obtain ⟨m, -, rfl⟩ := run_iterate hrun
  clear hrun
  induction m generalizing s t with
  | zero => exact h.spares
  | succ m ih => exact ih h.step

/-! ## The call itself -/

variable {w : World}

/-- Where none but the loose scopes are under the veil, what is not is inside what is not: a scope
is kept only with all that is around it. -/
theorem loose_clear (h : w.Sound k) (hβ : ∀ id, β id ≠ none ↔ w.scopes.Loose id) :
    w.scopes.Clear β where
  live id hid := ((hβ id).mp hid).1
  outward id parent hid hnone hp := by
    have hcap : (w.scopes.scope id).captured = true := by
      by_contra hc
      exact (hβ id).mpr ⟨hid, by simpa using hc⟩ hnone
    have hparent := h.store.tidy.captured_parent id parent hcap hp
    refine ⟨h.store.tidy.parent_live id parent hid hp, ?_⟩
    by_contra hne
    exact ((hβ parent).mp hne).not_captured hparent

theorem call_beside (h : w.Sound k) (hk : Frame.Fit true k)
    (hβ : ∀ id, β id ≠ none ↔ w.scopes.Loose id) (here : ScopeId) (paren : Token) {callee : Value}
    (hc : w.scopes.Keeps callee) {args : List Value} (ha : ∀ a ∈ args, w.scopes.Keeps a) :
    Beside β w.scopes here (call [] w paren callee args)
      (call [] (w.elsewhere β here) paren callee args) := by
  have hclear := loose_clear h hβ
  have ht := (call_turn (k := []) paren callee args).turned h.store.tidy h.scope_live
  have hspares : w.scopes.Spares β (call [] w paren callee args).world.scopes := by
    intro id hid
    have hloose := (hβ id).mp hid
    have hlive := (ht.ends id hloose.1).resolve_right (by simp [Frame.opened])
    refine ⟨⟨hlive, Bool.eq_false_iff.mpr fun hc => ?_⟩, ht.parent id hloose.1⟩
    rcases ht.captured id hc with hc | ⟨hd, -⟩
    · exact hloose.not_captured hc
    · cases hd
  rcases call_elsewhere (k := []) hclear h.store.tidy.spare here paren callee args with
    ⟨body, closure, left, w', hclosure, hparent, h1, h2⟩ | ⟨c, w', h1, -, ho, h2⟩
  · have hfollows := call_follows h paren hc args ha
    have hfits := call_fitting hk w paren callee args
    rw [← List.nil_append k, call_onto, h1] at hfollows hfits
    rw [h1] at ht hspares
    rw [h1, h2]
    refine .inside (s := ⟨.flow .normal, [.sequence body], w'⟩) (k := .endCall :: k)
      ⟨⟨hfits, hfollows.toSound⟩, hspares, fun id parent hid hnone hp => ?_, fun id hid => ?_⟩
    · rcases ht.begins id hid with hlive | ⟨-, hopened, -⟩
      · exact (hclear.outward id parent hlive hnone ((ht.parent id hlive).symm.trans hp)).2
      · obtain rfl : left = id := by simpa [Frame.opened] using hopened
        obtain rfl : closure = parent := Option.some.inj (hparent.symm.trans hp)
        by_contra hne
        exact ((hβ closure).mp hne).not_captured (hc closure hclosure)
    · by_contra hne
      rcases ht.opened id hid with hid | hid
      · cases hid
      · exact hid ((hβ id).mp hne).1
  · rw [h1] at hspares
    rw [h1, h2]
    exact .ended hspares ho

theorem Sound.holds_keeps (h : s.Sound) {v : Value} (hv : s.Holds v) : s.world.scopes.Keeps v :=
  fun closure hc => (h.safe.functions v closure hv hc).1

/-- A call of any value that exists, with any arguments that exist, leaves every scope that is in
use and not kept by a function as it is. What the call comes to, what it prints and what it leaves
in all other scopes does not depend on what these scopes bind, nor on the scope it is made in. -/
theorem loose_scopes_untouched (sink : Sink) (input : Input) (clock : Nat → Float) {s : State}
    (hs : Reaches (fresh sink input clock) s) (paren : Token) {callee : Value}
    (hc : s.Holds callee) {args : List Value} (ha : ∀ a ∈ args, s.Holds a) (n : Nat) :
    (∀ o w, run n (call [] s.world paren callee args) = some (o, w) →
      ∀ id, s.world.scopes.Loose id →
        w.scopes.Live id ∧ w.scopes.scope id = s.world.scopes.scope id) ∧
    ∀ (bindings : ScopeId → Bindings) (here : ScopeId),
      Option.Rel (Alike (s.world.scopes.cover bindings) here)
        (run n (call [] s.world paren callee args))
        (run n (call [] (s.world.elsewhere (s.world.scopes.cover bindings) here) paren callee
          args)) := by
  obtain ⟨-, hfollows⟩ :=
    hs.follows (fresh_idle sink input clock).fitting (fresh_sound sink input clock)
  have hsound := hfollows.toSound
  -- the outcome is dropped before the scopes are left
  have hwaits := hsound.world.leaves.cons (f := .discard) rfl keeps_none
  have hfit : Frame.Fit true (.discard :: s.frames.filter Frame.isLeave) :=
    ⟨rfl, Frame.fit_filter _⟩
  have hbeside (bindings : ScopeId → Bindings) (here : ScopeId) :=
    call_beside hwaits hfit (s.world.scopes.cover_ne_none bindings) here paren
      (hsound.holds_keeps hc) fun a h => hsound.holds_keeps (ha a h)
  refine ⟨fun o w hrun id hid => ?_, fun bindings here => (hbeside bindings here).run n⟩
  -- under a veil with the bindings that the scopes have, the call is the same
  have hsame := hbeside (fun id => (s.world.scopes.scope id).bindings) s.world.scope
  obtain ⟨⟨hlive, hcap⟩, hparent⟩ := hsame.run_spares hrun id ((cover_ne_none ..).mpr hid)
  have hends := hsame.run n
  rw [s.world.elsewhere_own, hrun] at hends
  cases hends with
  | some halike =>
    obtain ⟨-, back, hw, -⟩ := halike
    have hveil : w.scopes = w.scopes.veil _ := congrArg World.scopes hw
    refine ⟨hlive, ?_⟩
    rw [hveil, scope_veil hlive.1, cover, if_pos hid]
    exact Scope.veil_eq hparent (hcap.trans hid.2.symm) (hlive.2.trans hid.1.2.symm)

/-- What the machine calls, and what it calls it with, exists. -/
theorem nextCall_holds {paren : Token} {callee : Value} {args : List Value}
    (h : s.nextCall? = some (paren, callee, args)) :
    s.Holds callee ∧ ∀ a ∈ args, s.Holds a := by
  unfold nextCall? at h
  split at h
  · cases h
    exact ⟨.inl (by simp [Control.values]), by simp⟩
  · cases h
    refine ⟨.inr (.inl ⟨_, List.mem_cons_self, by simp [Frame.values]⟩), fun a ha => ?_⟩
    rcases List.mem_cons.mp (List.mem_reverse.mp ha) with rfl | ha
    · exact .inl (by simp [Control.values])
    · exact .inr (.inl ⟨_, List.mem_cons_self, by simp [Frame.values, ha]⟩)
  · cases h

/-- `{ let x; func f() { x = true; } { let x; f(); } }`. -/
def shadowing : Stmt :=
  let x : Token := ⟨.name, "x", none, .start⟩
  .block [.declare x none,
    .func ⟨.name, "f", none, .start⟩ [] [.expr (.assign x (.constant (.bool true)))],
    .block [.declare x none, .expr (plainCall "f")]]

/-- The moment before `f` is called. -/
def shadowed : State := step^[13] ⟨.exec shadowing, [], {}⟩

/-- The function assigns to the variable next to it. The one of the same name in the block where it
is called does not change, and need not be there. -/
theorem loose_scopes_untouched_shadowed :
    ∃ paren callee w, shadowed.nextCall? = some (paren, callee, []) ∧
      shadowed.world.scope = ⟨2⟩ ∧ shadowed.world.scopes.Loose ⟨2⟩ ∧
      run 12 (call [] shadowed.world paren callee []) = some (.value .nil, w) ∧
      w.scopes.get ⟨1⟩ "x" = .ok (.bool true) ∧
      w.scopes.scope ⟨2⟩ = shadowed.world.scopes.scope ⟨2⟩ ∧
      Option.Rel (Alike (shadowed.world.scopes.cover fun _ => []) .global) (some (.value .nil, w))
        (run 12 (call [] (shadowed.world.elsewhere (shadowed.world.scopes.cover fun _ => []) .global)
          paren callee [])) := by
  have hreaches : Reaches (fresh {} {} fun _ => 0) shadowed :=
    .head (.exec (fresh_idle ..) shadowing) (iterate_reaches _ 13)
  have hruns : ∃ paren callee w, shadowed.nextCall? = some (paren, callee, []) ∧
      run 12 (call [] shadowed.world paren callee []) = some (.value .nil, w) ∧
      w.scopes.get ⟨1⟩ "x" = .ok (.bool true) := ⟨_, _, _, rfl, rfl, rfl⟩
  obtain ⟨paren, callee, w, hcall, hrun, hx⟩ := hruns
  have hloose : shadowed.world.scopes.Loose ⟨2⟩ := by decide +kernel
  obtain ⟨hc, ha⟩ := nextCall_holds hcall
  obtain ⟨hsame, halike⟩ := loose_scopes_untouched {} {} (fun _ => 0) hreaches paren hc ha 12
  have h := halike (fun _ => []) .global
  rw [hrun] at h
  exact ⟨paren, callee, w, hcall, rfl, hloose, hrun, hx, (hsame _ w hrun ⟨2⟩ hloose).2, h⟩

end State

end Script
