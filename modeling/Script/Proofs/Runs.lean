import Mathlib.Logic.Relation
import Script.Machine.Step

/-!
# Runs

A world is used for one call after the other: a program is executed, or an
expression evaluated, and when that has come to an end, in whatever way, the next
call starts where it stopped. Between calls the machine is idle. What holds of an
idle machine in a new world, and is kept by every step and by the start of every
call, holds at every moment.
-/

namespace Script

namespace State

/-- Nothing is being done: a run has ended, and the program goes on. -/
def Idle (s : State) : Prop := ∃ o, s.outcome? = some o ∧ o ≠ .exit

/-- A machine in a new world, with nothing to do yet. -/
def fresh (sink : Sink) (input : Input) (clock : Nat → Float) : State :=
  ⟨.flow .normal, [], { sink, input, clock }⟩

/-- One step, or the start of a call. -/
inductive Move : State → State → Prop where
  | step (s : State) : Move s s.step
  | exec {s : State} (h : s.Idle) (body : Stmt) : Move s ⟨.exec body, [], s.world⟩
  | eval {s : State} (h : s.Idle) (e : Expr) : Move s ⟨.eval e, [], s.world⟩

abbrev Reaches : State → State → Prop := Relation.ReflTransGen Move

theorem fresh_idle (sink : Sink) (input : Input) (clock : Nat → Float) :
    (fresh sink input clock).Idle := ⟨.flow .normal, rfl, by simp⟩

theorem Idle.frames {s : State} (h : s.Idle) : s.frames = [] := by
  obtain ⟨o, ho, hne⟩ := h
  obtain ⟨c, k, w⟩ := s
  cases c <;> cases k <;> simp_all [outcome?]

theorem run_reaches {n : Nat} {s : State} {o : Outcome} {w : World} (h : run n s = some (o, w)) :
    ∃ t, Reaches s t ∧ t.outcome? = some o ∧ t.world = w := by
  induction n generalizing s with
  | zero => cases h
  | succ n ih =>
    simp only [run] at h
    split at h
    · rename_i o' ho
      cases h
      exact ⟨s, .refl, ho, rfl⟩
    · obtain ⟨t, ht, he⟩ := ih h
      exact ⟨t, .head (.step s) ht, he⟩

/-- Executing statements, one after the other, is a row of moves. -/
theorem execute_reaches {n : Nat} {body : List Stmt} {ending : Ending Completion} {w : World}
    {s : State} (hs : s.Idle) (h : World.execute (run n) body s.world = some (ending, w)) :
    ∃ t, Reaches s t ∧ t.world = w ∧ (ending ≠ .exited → t.Idle) := by
  induction body generalizing s with
  | nil => cases h; exact ⟨s, .refl, rfl, fun _ => hs⟩
  | cons stmt rest ih =>
    obtain ⟨⟨o, w'⟩, hr, h⟩ := Option.bind_eq_some_iff.mp h
    obtain ⟨t, ht, ho, rfl⟩ := run_reaches hr
    have hst : Reaches s t := .head (.exec hs stmt) ht
    cases o with
    | value v => obtain ⟨u, hu, he⟩ := ih ⟨_, ho, by simp⟩ h; exact ⟨u, hst.trans hu, he⟩
    | flow f =>
      cases f with
      | returned v => cases h; exact ⟨t, hst, rfl, fun _ => ⟨_, ho, by simp⟩⟩
      | normal | broke | continued =>
        obtain ⟨u, hu, he⟩ := ih ⟨_, ho, by simp⟩ h
        exact ⟨u, hst.trans hu, he⟩
    | error e => cases h; exact ⟨t, hst, rfl, fun _ => ⟨_, ho, by simp⟩⟩
    | exit => cases h; exact ⟨t, hst, rfl, fun hne => absurd rfl hne⟩

theorem evaluate_reaches {n : Nat} {e : Expr} {ending : Ending Value} {w : World} {s : State}
    (hs : s.Idle) (h : World.evaluate (run n) e s.world = some (ending, w)) :
    ∃ t, Reaches s t ∧ t.world = w ∧ (ending ≠ .exited → t.Idle) := by
  obtain ⟨⟨o, w'⟩, hr, h⟩ := Option.bind_eq_some_iff.mp h
  obtain ⟨t, ht, ho, rfl⟩ := run_reaches hr
  have hst : Reaches s t := .head (.eval hs e) ht
  cases o with
  | value | flow | error => cases h; exact ⟨t, hst, rfl, fun _ => ⟨_, ho, by simp⟩⟩
  | exit => cases h; exact ⟨t, hst, rfl, fun hne => absurd rfl hne⟩

end State

/-! ## What is seen of calls -/

def Ending.map {α β : Type} (f : α → β) : Ending α → Ending β
  | .done a => .done (f a)
  | .failed e => .failed e
  | .exited => .exited

/-- What is seen of a call: how it ended, with the value it came to as it is printed, all that has
been written, and the input that is left. -/
structure Sight where
  ending : Ending (Option String)
  sink : Sink
  input : Input

/-- Makes a call, with so many steps for each run of the machine. -/
def World.call (n : Nat) (w : World) : Line → Option (Sight × World)
  | .statements body => (w.execute (State.run n) body).map fun (ending, w') =>
    (⟨ending.map fun _ => none, w'.sink, w'.input⟩, w')
  | .expression e => (w.evaluate (State.run n) e).map fun (ending, w') =>
    (⟨ending.map fun v => some v.render, w'.sink, w'.input⟩, w')

/-- A call comes to an end, is seen like this, and leaves this world. -/
def World.Shows (w : World) (call : Line) (sight : Sight) (w' : World) : Prop :=
  ∃ n, w.call n call = some (sight, w')

/-- Calls that are made one after the other all come to an end, and this is what is seen of them. No
call follows one that has ended the program. -/
inductive World.Transcript : World → List Line → List Sight → Prop where
  | nil {w : World} : Transcript w [] []
  | cons {w w' : World} {call : Line} {calls : List Line} {sight : Sight} {sights : List Sight} :
      w.Shows call sight w' → (sight.ending = .exited → calls = []) →
      Transcript w' calls sights → Transcript w (call :: calls) (sight :: sights)

end Script
