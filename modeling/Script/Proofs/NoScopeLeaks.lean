import Mathlib.Logic.Function.Iterate
import Script.Proofs.StepTurns
import Script.Proofs.TreeRules

/-!
# No scope leaks

A run that has ended leaves the scopes that were in use when it started, each in
its slot and inside the same scope, and besides these just the ones that it pushed
and in which, or inside of which, it declared a function. It does not matter how
the run has ended, as long as the program goes on.
-/

namespace Script

/-! ## Runs above other frames -/

theorem Frame.opened_append (j k : List Frame) : opened (j ++ k) = opened j ++ opened k := by
  induction j with
  | nil => rfl
  | cons f j ih => cases f <;> simp [opened, ih]

theorem Frame.opened_filter (k : List Frame) : opened (k.filter isLeave) = opened k := by
  induction k with
  | nil => rfl
  | cons f k ih =>
    cases f with
    | leave left back => exact congrArg (left :: ·) ih
    | _ => exact ih

theorem Frame.backs_filter {k : List Frame} (h : Backs k) : Backs (k.filter isLeave) := by
  induction k with
  | nil => trivial
  | cons f k ih =>
    cases f with
    | leave left back => exact ⟨by rw [opened_filter]; exact h.1, ih h.2⟩
    | _ => exact ih h

theorem Frame.fit_filter (k : List Frame) : Fit false (k.filter isLeave) := by
  induction k with
  | nil => trivial
  | cons f k ih =>
    cases f with
    | leave left back => exact ⟨rfl, ih⟩
    | _ => exact ih

theorem Frame.Fit.of_append {b : Bool} {j k : List Frame} (h : Fit b (j ++ k)) : Fit b j := by
  induction j generalizing b with
  | nil => trivial
  | cons f j ih => exact ⟨h.1, ih h.2⟩

/-- Of the frames that wait, those that leave scopes are all that matters to the scopes. -/
theorem World.Sound.leaves {w : World} {k : List Frame} (h : w.Sound k) :
    w.Sound (k.filter Frame.isLeave) where
  store := by rw [Frame.opened_filter]; exact h.store
  current := by rw [Frame.opened_filter]; exact h.current
  backs := Frame.backs_filter h.backs
  waiting f hf := h.waiting f (List.mem_of_mem_filter hf)

namespace State

/-- The state is sound with the frames `k` below its own. -/
structure Above (k : List Frame) (s : State) : Prop where
  fitting : (s.onto k).Fitting
  sound : (s.onto k).Sound

variable {k : List Frame} {s : State}

theorem Above.next (h : s.Above k) :
    s.step.Above k ∧ s.world.scopes.Retains s.step.world.scopes := by
  cases ho : s.outcome? with
  | some o =>
    rw [step_ended ho]
    exact ⟨h, .refl _⟩
  | none =>
    have hf := step_fitting h.fitting
    have hs := step_follows h.fitting h.sound
    rw [step_onto ho] at hf hs
    exact ⟨⟨hf, hs.toSound⟩, hs.retains⟩

theorem Above.iterate (h : s.Above k) (n : Nat) : (step^[n] s).Above k := by
  induction n with
  | zero => exact h
  | succ n ih =>
    rw [Function.iterate_succ_apply']
    exact ih.next.1

theorem Above.retains (h : s.Above k) {i n : Nat} (hi : i ≤ n) :
    (step^[i] s).world.scopes.Retains (step^[n] s).world.scopes := by
  induction hi with
  | refl => exact .refl _
  | @step n _ ih =>
    rw [Function.iterate_succ_apply']
    exact ih.trans (h.iterate n).next.2

theorem Above.turn (h : s.Above k) : s.world.Turn (Frame.opened s.frames) s.declares s.step := by
  obtain ⟨b, hb, hk⟩ := h.fitting
  exact step_turn ⟨b, hb, hk.of_append⟩

theorem Above.turned (h : s.Above k) :
    s.world.Turned (Frame.opened s.frames) s.declares s.step := by
  have ht : s.world.scopes.Tidy (Frame.opened s.frames ++ Frame.opened k) := by
    rw [← Frame.opened_append]
    exact h.sound.world.store.tidy
  exact h.turn.turned ht h.sound.world.scope_live

/-- The next step pushes a scope, and goes on inside of it. -/
def Pushes (s : State) (id : ScopeId) : Prop :=
  (∃ parent, (s.world.scopes.push parent).1 = id) ∧
    Frame.opened s.step.frames = id :: Frame.opened s.frames

/-- The next step declares a function in a scope or inside of it. -/
def DeclaresIn (s : State) (id : ScopeId) : Prop :=
  s.declares = true ∧ ∃ l, s.world.scopes.Around s.world.scope l ∧ id ∈ l

/-- A run pushes a scope, and declares a function in it or inside of it before it is left. -/
def Captures (s : State) (id : ScopeId) : Prop :=
  ∃ i j, i < j ∧ (step^[i] s).Pushes id ∧ (step^[j] s).DeclaresIn id ∧
    ∀ m, i < m → m ≤ j → (step^[m] s).world.scopes.Live id

/-- Where the scopes in use after `n` steps come from. -/
structure Accounts (s : State) (n : Nat) : Prop where
  kept : ∀ id, s.world.scopes.Live id → (step^[n] s).world.scopes.Live id ∧
    ((step^[n] s).world.scopes.scope id).parent = (s.world.scopes.scope id).parent
  opened : ∀ id ∈ Frame.opened (step^[n] s).frames, ¬ s.world.scopes.Live id
  pushed : ∀ id, (step^[n] s).world.scopes.Live id → s.world.scopes.Live id ∨
    ∃ i < n, (step^[i] s).Pushes id ∧
      (∀ m, i < m → m ≤ n → (step^[m] s).world.scopes.Live id) ∧
      (((step^[n] s).world.scopes.scope id).captured = true →
        ∃ j, i < j ∧ j < n ∧ (step^[j] s).DeclaresIn id)

theorem Accounts.succ {n : Nat} (h : s.Accounts n) (ha : s.Above k) : s.Accounts (n + 1) := by
  have ht := (ha.iterate n).turned
  rw [← Function.iterate_succ_apply' step] at ht
  refine ⟨fun id hid => ?_, fun id hid hl => ?_, fun id hid => ?_⟩
  · obtain ⟨hn, hp⟩ := h.kept id hid
    refine ⟨(ht.ends id hn).resolve_right fun ho => ?_, (ht.parent id hn).trans hp⟩
    exact h.opened id ho hid
  · rcases ht.opened id hid with ho | ho
    · exact h.opened id ho hl
    · exact ho (h.kept id hl).1
  · rcases ht.begins id hid with hn | ⟨hpush, ho, hc⟩
    · refine (h.pushed id hn).imp_right ?_
      rintro ⟨i, hi, hpush, hlive, hcap⟩
      refine ⟨i, by omega, hpush, fun m him hmn => ?_, fun hc => ?_⟩
      · rcases Nat.lt_or_ge n m with hm | hm
        · obtain rfl : m = n + 1 := by omega
          exact hid
        · exact hlive m him hm
      · rcases ht.captured id hc with hc | ⟨hd, ha⟩
        · obtain ⟨j, hij, hjn, hd⟩ := hcap hc
          exact ⟨j, hij, by omega, hd⟩
        · exact ⟨n, hi, by omega, hd, ha⟩
    · -- the scope was pushed just now, and nothing has been declared in it
      refine .inr ⟨n, by omega, ⟨hpush, ?_⟩, fun m him hmn => ?_, fun hc' => ?_⟩
      · rw [← Function.iterate_succ_apply' step]
        exact ho
      · obtain rfl : m = n + 1 := by omega
        exact hid
      · rw [hc] at hc'
        cases hc'

theorem Above.accounts (h : s.Above k) (hs : s.frames = []) (n : Nat) : s.Accounts n := by
  induction n with
  | zero => exact ⟨fun id hid => ⟨hid, rfl⟩, by simp [hs, Frame.opened], fun id hid => .inl hid⟩
  | succ n ih => exact ih.succ h

/-- A scope that a function was declared in is in use from then on. -/
theorem Above.declared_live (h : s.Above k) {id : ScopeId} {j n : Nat} (hj : j < n)
    (hd : (step^[j] s).DeclaresIn id) : (step^[n] s).world.scopes.Live id := by
  have hs := (h.iterate j).sound.world
  obtain ⟨hdecl, l, hl, hid⟩ := hd
  have hcap : ((step^[j + 1] s).world.scopes.scope id).captured = true := by
    rw [Function.iterate_succ_apply']
    have ht := (h.iterate j).turn
    rw [hdecl] at ht
    cases ht with
    | declares hr =>
      rw [hr.captured]
      exact (hs.store.tidy.capture_captured hl hs.scope_live id).mpr (.inr hid)
  exact (h.iterate n).sound.world.store.tidy.captured_live id (h.retains hj id hcap).1

theorem iterate_reaches (s : State) (n : Nat) : Reaches s (step^[n] s) := by
  induction n with
  | zero => exact .refl
  | succ n ih =>
    rw [Function.iterate_succ_apply']
    exact ih.tail (.step _)

theorem run_iterate {n : Nat} {o : Outcome} {w : World} (h : run n s = some (o, w)) :
    ∃ m, (step^[m] s).outcome? = some o ∧ (step^[m] s).world = w := by
  induction n generalizing s with
  | zero => cases h
  | succ n ih =>
    simp only [run] at h
    split at h
    · rename_i o' ho
      cases h
      exact ⟨0, ho, rfl⟩
    · obtain ⟨m, hm⟩ := ih h
      exact ⟨m + 1, hm⟩

theorem iterate_ended {o : Outcome} {m n : Nat} (h : (step^[m] s).outcome? = some o)
    (hn : m ≤ n) : step^[n] s = step^[m] s := by
  induction hn with
  | refl => rfl
  | @step n _ ih => rw [Function.iterate_succ_apply', ih, step_ended h]

theorem declares_ended {o : Outcome} (h : s.outcome? = some o) : s.declares = false := by
  obtain ⟨c, k, w⟩ := s
  cases c with
  | exec body => cases h
  | _ => rfl

end State

/-! ## Calls -/

/-- What the machine is started with. -/
inductive Tree where
  | stmt (s : Stmt)
  | expr (e : Expr)

def Line.trees : Line → List Tree
  | .statements body => body.map .stmt
  | .expression e => [.expr e]

namespace World

open State Scopes

variable {w w' : World} {k : List Frame} {n : Nat}

def start (w : World) : Tree → State
  | .stmt s => ⟨.exec s, [], w⟩
  | .expr e => ⟨.eval e, [], w⟩

theorem world_start (w : World) (x : Tree) : (w.start x).world = w := by cases x <;> rfl

theorem frames_start (w : World) (x : Tree) : (w.start x).frames = [] := by cases x <;> rfl

theorem Sound.start (h : w.Sound k) (x : Tree) :
    ∃ j, Frame.opened j = Frame.opened k ∧ (w.start x).Above j := by
  cases x with
  | stmt s =>
    exact ⟨k.filter Frame.isLeave, Frame.opened_filter k, ⟨false, rfl, Frame.fit_filter k⟩,
      h.leaves, keeps_none⟩
  | expr e =>
    -- the outcome of an expression is dropped before the scopes are left
    exact ⟨.discard :: k.filter Frame.isLeave, Frame.opened_filter k,
      ⟨true, rfl, rfl, Frame.fit_filter k⟩, h.leaves.cons rfl keeps_none, keeps_none⟩

/-- What a run that has ended leaves of the scopes. -/
structure Settles (w : World) (k : List Frame) (x : Tree) (w' : World) : Prop where
  sound : w'.Sound k
  never_freed : ∀ id, w.scopes.Live id → ∀ m, (step^[m] (w.start x)).world.scopes.Live id
  parent : ∀ id, w.scopes.Live id → (w'.scopes.scope id).parent = (w.scopes.scope id).parent
  live_iff : ∀ id, w'.scopes.Live id ↔ w.scopes.Live id ∨ (w.start x).Captures id

theorem Sound.settles (h : w.Sound k) {x : Tree} {o : Outcome}
    (hr : run n (w.start x) = some (o, w')) (ho : o ≠ .exit) : w.Settles k x w' := by
  obtain ⟨j, hj, ha⟩ := h.start x
  obtain ⟨m, hm, rfl⟩ := run_iterate hr
  have hacc := ha.accounts (w.frames_start x)
  have hret := ha.retains (Nat.zero_le m)
  have hstart : ∀ id, w.scopes.Live id ↔ (w.start x).world.scopes.Live id := by
    intro id
    rw [world_start]
  have hs := (ha.iterate m).sound.world
  rw [onto, Idle.frames ⟨o, hm, ho⟩, List.nil_append] at hs
  have hsound : (step^[m] (w.start x)).world.Sound k := by
    refine ⟨hj ▸ hs.store, hj ▸ hs.current, h.backs, fun f hf v hv => ?_⟩
    rw [Function.iterate_zero_apply, world_start] at hret
    exact (h.waiting f hf v hv).mono hret
  refine ⟨hsound, fun id hid m => ?_, fun id hid => ?_, fun id => ⟨fun hid => ?_, ?_⟩⟩
  · exact ((hacc m).kept id ((hstart id).mp hid)).1
  · rw [((hacc m).kept id ((hstart id).mp hid)).2, world_start]
  · rcases (hacc m).pushed id hid with hid | ⟨i, hi, hpush, hlive, hcap⟩
    · exact .inl ((hstart id).mpr hid)
    · cases hc : ((step^[m] (w.start x)).world.scopes.scope id).captured with
      | true =>
        obtain ⟨j, hij, hjm, hd⟩ := hcap hc
        exact .inr ⟨i, j, hij, hpush, hd, fun p hip hpj => hlive p hip (by omega)⟩
      | false =>
        -- what is not kept is global or was open from the start
        rcases hsound.store.tidy.opened_all id hid hc with rfl | hopen
        · exact .inl h.store.tidy.root_live
        · exact .inl (h.store.tidy.opened_live id hopen)
  · rintro (hid | ⟨i, j, hij, hpush, hd, hlive⟩)
    · exact ((hacc m).kept id ((hstart id).mp hid)).1
    · refine ha.declared_live (Nat.lt_of_not_le fun hmj => ?_) hd
      have hnone := declares_ended hm
      rw [← iterate_ended hm hmj, hd.1] at hnone
      cases hnone

/-- Between calls a scope other than the global one is in use only if it is kept. -/
theorem Sound.global_or_captured (h : w.Sound []) {id : ScopeId} (hid : w.scopes.Live id) :
    id = .global ∨ (w.scopes.scope id).captured = true := by
  cases hc : (w.scopes.scope id).captured with
  | true => exact .inr rfl
  | false =>
    rcases h.store.tidy.opened_all id hid hc with hg | hopen
    · exact .inl hg
    · cases hopen

/-- Calls that are made one after the other all come to an end, none of them ends the program, and
this is the world that they leave. -/
inductive Leads : World → List Line → World → Prop where
  | nil {w : World} : Leads w [] w
  | cons {w w' w'' : World} {call : Line} {calls : List Line} {sight : Sight} :
      w.Shows call sight w' → sight.ending ≠ .exited → Leads w' calls w'' →
      Leads w (call :: calls) w''

section
variable {P : World → Prop} {Q : Tree → Prop}
  (hP : ∀ {n w w' x o}, P w → Q x → run n (w.start x) = some (o, w') → o ≠ .exit → P w')
include hP

theorem execute_keeps {body : List Stmt} (hbody : ∀ s ∈ body, Q (.stmt s)) (hw : P w)
    {ending : Ending Completion} (h : w.execute (run n) body = some (ending, w'))
    (he : ending ≠ .exited) : P w' := by
  induction body generalizing w with
  | nil => cases h; exact hw
  | cons s rest ih =>
    obtain ⟨hs, hrest⟩ := List.forall_mem_cons.mp hbody
    obtain ⟨⟨o, w₁⟩, hr, h⟩ := Option.bind_eq_some_iff.mp h
    have hw₁ : o ≠ .exit → P w₁ := hP hw hs hr
    cases o with
    | value v => exact ih hrest (hw₁ (by simp)) h
    | flow f =>
      cases f with
      | returned v => cases h; exact hw₁ (by simp)
      | normal | broke | continued => exact ih hrest (hw₁ (by simp)) h
    | error e => cases h; exact hw₁ (by simp)
    | exit => cases h; exact absurd rfl he

theorem evaluate_keeps {e : Expr} (hx : Q (.expr e)) (hw : P w) {ending : Ending Value}
    (h : w.evaluate (run n) e = some (ending, w')) (he : ending ≠ .exited) : P w' := by
  obtain ⟨⟨o, w₁⟩, hr, h⟩ := Option.bind_eq_some_iff.mp h
  have hw₁ : o ≠ .exit → P w₁ := hP hw hx hr
  cases o with
  | value | flow | error => cases h; exact hw₁ (by simp)
  | exit => cases h; exact absurd rfl he

/-- What every run keeps that does not end the program, calls keep. -/
theorem Leads.keeps {calls : List Line} (h : Leads w calls w')
    (hcalls : ∀ call ∈ calls, ∀ x ∈ call.trees, Q x) (hw : P w) : P w' := by
  induction h with
  | nil => exact hw
  | @cons w w₁ w₂ call calls sight hshow he _ ih =>
    obtain ⟨hcall, hcalls⟩ := List.forall_mem_cons.mp hcalls
    refine ih hcalls ?_
    obtain ⟨n, hn⟩ := hshow
    cases call with
    | statements body =>
      obtain ⟨⟨ending, _⟩, hr, hn⟩ := Option.map_eq_some_iff.mp hn
      cases hn
      refine execute_keeps hP (fun s hs => hcall _ (List.mem_map_of_mem hs)) hw hr ?_
      rintro rfl
      exact he rfl
    | expression e =>
      obtain ⟨⟨ending, _⟩, hr, hn⟩ := Option.map_eq_some_iff.mp hn
      cases hn
      refine evaluate_keeps hP (hcall _ (by simp [Line.trees])) hw hr ?_
      rintro rfl
      exact he rfl

end

end World

/-! ## Functions declared in the global scope only -/

/-- No function is declared inside of a block or of the body of a function. -/
def Rules.shallow : Rules where
  binary _ := True
  logical _ := True
  sign _ := True
  params _ := True
  leaves _ := True
  declares nested := nested = false
  fault _ := True
  fault_binary _ _ := trivial
  fault_sign _ _ := trivial
  fault_other _ _ := trivial

def Tree.Shallow : Tree → Prop
  | .stmt s => s.Meets .shallow false false
  | .expr _ => True

theorem Expr.meets_shallow : (e : Expr) → e.Meets .shallow
  | .assign _ value => .assign value.meets_shallow
  | .binary left _ right => .binary trivial left.meets_shallow right.meets_shallow
  | .logical left _ right => .logical trivial left.meets_shallow right.meets_shallow
  | .unary _ operand => .unary trivial operand.meets_shallow
  | .call callee _ args => .call callee.meets_shallow fun e _ => e.meets_shallow
  | .group inner => .group inner.meets_shallow
  | .constant _ => .constant
  | .reference _ => .reference

theorem Frame.opened_of_not_nested {k : List Frame} (h : nested k = false) : opened k = [] := by
  induction k with
  | nil => rfl
  | cons f k ih =>
    cases f with
    | leave left back => cases h
    | _ => exact ih h

/-- At most the global scope is kept, and every free slot is known. -/
structure Scopes.Shallow (s : Scopes) : Prop where
  covered : s.Covered
  captured : ∀ id, (s.scope id).captured = true → id = .global

theorem Scopes.rebound_register (s : Scopes) (identity : Nat) (natives : List Native) :
    Rebound s (s.register identity natives) := by
  induction natives generalizing s identity with
  | nil => exact .refl s
  | cons n rest ih => exact (s.rebound_define .global n.name _).trans (ih _ (identity + 1))

theorem Scopes.initial_shallow : initial.Shallow := by
  have hr := empty.rebound_register 0 Native.library
  have hempty : empty.Covered := by
    intro id _ hf
    rw [scope_empty] at hf
    cases hf
  refine ⟨hempty.sameShape hr.toSameShape, fun id hc => ?_⟩
  rw [initial, hr.captured, scope_empty] at hc
  cases hc

namespace State

variable {s : State}

structure Shallow (s : State) : Prop where
  above : s.Above []
  meets : s.Meets .shallow
  store : s.world.scopes.Shallow

theorem Meets.not_nested (h : s.Meets .shallow) (hd : s.declares = true) :
    Frame.nested s.frames = false := by
  obtain ⟨c, k, w⟩ := s
  cases c with
  | exec body =>
    cases body with
    | func name params body =>
      cases h.control with
      | func _ hnested => exact hnested
    | _ => cases hd
  | _ => cases hd

theorem Shallow.next (h : s.Shallow) : s.step.Shallow := by
  have hw := h.above.sound.world
  refine ⟨h.above.next.1, step_meets h.meets, h.above.turn.covered h.store.covered
    hw.store.tidy.spare_inside, fun id hc => ?_⟩
  rcases h.above.turned.captured id hc with hc | ⟨hd, l, hl, hid⟩
  · exact h.store.captured id hc
  · have hcurrent : s.world.scope = .global := by
      have hopened := Frame.opened_of_not_nested (h.meets.not_nested hd)
      have hcurrent := hw.current
      rwa [onto, List.append_nil, hopened] at hcurrent
    rw [hcurrent] at hl
    rw [hl.unique (.outermost hw.store.tidy.root_parent)] at hid
    exact List.mem_singleton.mp hid

theorem Shallow.iterate (h : s.Shallow) (n : Nat) : (step^[n] s).Shallow := by
  induction n with
  | zero => exact h
  | succ n ih =>
    rw [Function.iterate_succ_apply']
    exact ih.next

end State

namespace World

variable {w w' : World} {n : Nat}

structure Shallow (w : World) : Prop where
  sound : w.Sound []
  meets : w.scopes.Meets .shallow
  store : w.scopes.Shallow

theorem Shallow.start (h : w.Shallow) {x : Tree} (hx : x.Shallow) : (w.start x).Shallow := by
  cases x with
  | stmt s =>
    exact ⟨⟨⟨false, rfl, trivial⟩, h.sound, Scopes.keeps_none⟩, ⟨hx, trivial, h.meets⟩, h.store⟩
  | expr e =>
    exact ⟨⟨⟨true, rfl, trivial⟩, h.sound, Scopes.keeps_none⟩,
      ⟨e.meets_shallow, trivial, h.meets⟩, h.store⟩

theorem Shallow.run (h : w.Shallow) {x : Tree} (hx : x.Shallow) {o : Outcome}
    (hr : State.run n (w.start x) = some (o, w')) (ho : o ≠ .exit) : w'.Shallow := by
  obtain ⟨m, hm, rfl⟩ := State.run_iterate hr
  have hs := (h.start hx).iterate m
  exact ⟨(h.sound.settles hr ho).sound, hs.meets.bound, hs.store⟩

theorem Shallow.live (h : w.Shallow) : w.scopes.live = 1 := by
  have hids : ∀ id, id ∈ [ScopeId.global] ↔ w.scopes.Live id := by
    intro id
    rw [List.mem_singleton]
    constructor
    · rintro rfl
      exact h.sound.store.tidy.root_live
    · intro hid
      exact (h.sound.global_or_captured hid).elim (fun e => e) (h.store.captured id)
  exact h.store.covered.live_eq h.sound.store.tidy (List.nodup_singleton _) hids

/-- A run in a sound world leaves exactly the scopes that were there and those that it pushed and
that a function keeps. So after any calls in a new world all scopes but the global one are kept by
functions, and there is none if functions were declared in the global scope only. -/
theorem no_scope_leaks :
    (∀ (w : World) (k : List Frame) (x : Tree) (n : Nat) (o : Outcome) (w' : World), w.Sound k →
      State.run n (w.start x) = some (o, w') → o ≠ .exit → w.Settles k x w') ∧
    ∀ (sink : Sink) (input : Input) (clock : Nat → Float) (calls : List Line) (w : World),
      Leads { sink, input, clock } calls w →
      (∀ id, w.scopes.Live id → id = .global ∨ (w.scopes.scope id).captured = true) ∧
      ((∀ call ∈ calls, ∀ x ∈ call.trees, x.Shallow) → w.scopes.live = 1) := by
  refine ⟨fun w k x n o w' h hr ho => h.settles hr ho, fun sink input clock calls w h => ?_⟩
  have hfresh := (State.fresh_sound sink input clock).world
  constructor
  · have hw : w.Sound [] := Leads.keeps (P := fun w => w.Sound []) (Q := fun _ => True)
      (fun hw _ hr ho => (hw.settles hr ho).sound) h (fun _ _ _ _ => trivial) hfresh
    exact fun id hid => hw.global_or_captured hid
  · intro hcalls
    have hshallow : ({ sink, input, clock } : World).Shallow :=
      ⟨hfresh, Scopes.initial_meets, Scopes.initial_shallow⟩
    exact (Leads.keeps (fun hw hx hr ho => hw.run hx hr ho) h hcalls hshallow).live

/-- `{ {} fun f() {} }`. -/
def keepingBlock : Tree :=
  .stmt (.block [.block [], .func ⟨.name, "f", none, .start⟩ [] []])

/-- `fun f() { { g; } }` and then `f()`, which fails inside of a block. -/
def failingCalls : List Line :=
  [.statements [.func ⟨.name, "f", none, .start⟩ []
      [.block [.expr (.reference ⟨.name, "g", none, .start⟩)]]],
    .expression (.call (.reference ⟨.name, "f", none, .start⟩) ⟨.rightParen, ")", none, .start⟩ [])]

theorem no_scope_leaks_failing :
    (∃ w, State.run 20 (start {} keepingBlock) = some (.flow .normal, w) ∧
      ¬ w.scopes.Live ⟨2⟩ ∧ w.scopes.Live ⟨1⟩ ∧ (start {} keepingBlock).Captures ⟨1⟩) ∧
    ∃ w, Leads {} failingCalls w ∧ w.scopes.slots.size = 3 ∧ w.scopes.live = 1 := by
  constructor
  · have hrun : ∃ w, State.run 20 (start {} keepingBlock) = some (.flow .normal, w) ∧
        (w.scopes.scope ⟨2⟩).free = true ∧ w.scopes.Live ⟨1⟩ :=
      ⟨_, rfl, by decide +kernel, by decide +kernel, by decide +kernel⟩
    obtain ⟨w, hw, hfree, hlive⟩ := hrun
    have hfresh := (State.fresh_sound {} {} fun _ => 0).world
    have hsettles := no_scope_leaks.1 {} [] keepingBlock 20 (.flow .normal) w hfresh hw (by simp)
    have hdead : ¬ w.scopes.Live ⟨2⟩ := by
      intro h
      rw [h.2] at hfree
      cases hfree
    rcases (hsettles.live_iff ⟨1⟩).mp hlive with h | hcaptures
    · exact absurd h.1 (by decide +kernel)
    · exact ⟨w, hw, hdead, hlive, hcaptures⟩
  · have hcalls : ∀ call ∈ failingCalls, ∀ x ∈ call.trees, x.Shallow := by
      simp only [failingCalls, Line.trees, Tree.Shallow, List.map_cons, List.map_nil,
        List.forall_mem_cons]
      refine ⟨⟨.func trivial rfl ?_, by simp⟩, ⟨trivial, by simp⟩, by simp⟩
      exact List.forall_mem_singleton.mpr
        (.block (List.forall_mem_singleton.mpr (.expr (Expr.meets_shallow _))))
    have hleads : ∃ w, Leads {} failingCalls w ∧ w.scopes.slots.size = 3 :=
      ⟨_, .cons ⟨20, rfl⟩ (by simp [Ending.map]) (.cons ⟨20, rfl⟩ (by simp [Ending.map]) .nil),
        by decide +kernel⟩
    obtain ⟨w, hw, hsize⟩ := hleads
    exact ⟨w, hw, hsize, (no_scope_leaks.2 {} {} (fun _ => 0) failingCalls w hw).2 hcalls⟩

end World

end Script
