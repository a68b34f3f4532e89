import Script.Proofs.ClosuresSound
import Script.Proofs.ValueMaps

/-!
# Renaming scopes

A function knows its scope by name only, so giving scopes other names changes
nothing about a value that can be seen: not whether it is true, how it is
printed, what it equals, or what operators and native functions make of it. A
renaming matters for a value only at the scope of a function.
-/

namespace Script

variable (ρ : ScopeId → ScopeId)

def Value.rename : Value → Value
  | .callable identity (.function name params body closure) =>
    .callable identity (.function name params body (ρ closure))
  | v => v

def Flow.rename : Flow → Flow
  | .returned v => .returned (v.rename ρ)
  | f => f

def Control.rename : Control → Control
  | .value v => .value (v.rename ρ)
  | .flow f => .flow (f.rename ρ)
  | c => c

def Frame.rename : Frame → Frame
  | .right v op => .right (v.rename ρ) op
  | .argument paren v done args => .argument paren (v.rename ρ) (done.map (Value.rename ρ)) args
  | .leave id back => .leave (ρ id) (ρ back)
  | f => f

def Outcome.rename : Outcome → Outcome
  | .value v => .value (v.rename ρ)
  | .flow f => .flow (f.rename ρ)
  | o => o

def Bindings.rename (b : Bindings) : Bindings :=
  b.map fun p => (p.1, p.2.map (Value.rename ρ))

/-! ## What a renaming does not change -/

theorem Value.rename_plain {v : Value} (h : v.closure? = none) : v.rename ρ = v := by
  cases v with
  | callable identity c =>
    cases c with
    | function => cases h
    | native => rfl
  | _ => rfl

def Callable.rename : Callable → Callable
  | .function name params body closure => .function name params body (ρ closure)
  | .native n => .native n

theorem Callable.text_rename (c : Callable) : (c.rename ρ).text = c.text := by
  cases c <;> rfl

theorem Value.rename_eq : Value.rename ρ = Value.onCallables (Callable.rename ρ) := by
  funext v
  cases v with
  | callable identity c => cases c <;> rfl
  | _ => rfl

@[simp] theorem Value.isTrue_rename (v : Value) : (v.rename ρ).isTrue = v.isTrue := by
  rw [rename_eq, isTrue_onCallables]

@[simp] theorem Value.render_rename (v : Value) : (v.rename ρ).render = v.render := by
  rw [rename_eq, render_onCallables (Callable.text_rename ρ)]

@[simp] theorem World.rendered_rename (args : List Value) :
    World.rendered (args.map (Value.rename ρ)) = World.rendered args := by
  rw [Value.rename_eq, rendered_onCallables (Callable.text_rename ρ)]

theorem Operator.apply_rename (op : Kind) (left right : Value) :
    apply op (left.rename ρ) (right.rename ρ) = apply op left right := by
  rw [Value.rename_eq, apply_onCallables]

theorem Operator.applySign_rename (op : Kind) (operand : Value) :
    applySign op (operand.rename ρ) = applySign op operand := by
  rw [Value.rename_eq, applySign_onCallables]

@[simp] theorem Operator.decides_rename (op : Kind) (left : Value) :
    decides op (left.rename ρ) = decides op left := by
  rw [Value.rename_eq, decides_onCallables]

theorem Bindings.lookup_rename (name : String) (b : Bindings) :
    (b.rename ρ).lookup name = (b.lookup name).map (Option.map (Value.rename ρ)) :=
  lookup_onValues _ name b

theorem Bindings.isSome_lookup_rename (name : String) (b : Bindings) :
    ((b.rename ρ).lookup name).isSome = (b.lookup name).isSome :=
  isSome_lookup_onValues _ name b

theorem Bindings.set_rename (name : String) (value : Value) (b : Bindings) :
    (Bindings.set name value b).rename ρ = Bindings.set name (value.rename ρ) (b.rename ρ) :=
  set_onValues _ name value b

/-! ## Two renamings that agree where it matters -/

variable {ρ}

theorem Value.rename_congr {ρ' : ScopeId → ScopeId} {v : Value}
    (h : ∀ c, v.closure? = some c → ρ' c = ρ c) : v.rename ρ' = v.rename ρ := by
  unfold Value.rename
  split
  · rw [h _ rfl]
  · rfl

theorem Bindings.rename_congr {ρ' : ScopeId → ScopeId} {b : Bindings}
    (h : ∀ name v, (name, some v) ∈ b → v.rename ρ' = v.rename ρ) : b.rename ρ' = b.rename ρ := by
  refine List.map_congr_left fun p hp => ?_
  obtain ⟨key, value⟩ := p
  cases value with
  | none => rfl
  | some v => simp only [Option.map_some, h key v hp]

theorem Frame.rename_congr {ρ' : ScopeId → ScopeId} {f : Frame}
    (hv : ∀ v ∈ f.values, v.rename ρ' = v.rename ρ)
    (hl : ∀ id back, f = .leave id back → ρ' id = ρ id ∧ ρ' back = ρ back) :
    f.rename ρ' = f.rename ρ := by
  cases f with
  | right v op => simp only [Frame.rename, hv v (by simp [Frame.values])]
  | argument paren v done args =>
    simp only [Frame.rename, hv v (by simp [Frame.values])]
    rw [List.map_congr_left fun u hu => hv u (by simp [Frame.values, hu])]
  | leave id back =>
    obtain ⟨h1, h2⟩ := hl id back rfl
    simp only [Frame.rename, h1, h2]
  | _ => rfl

/-! ## Every scope under the same name, or under its own -/

theorem Value.rename_rename (ρ σ : ScopeId → ScopeId) (v : Value) :
    (v.rename ρ).rename σ = v.rename (σ ∘ ρ) := by
  cases v with
  | callable identity c => cases c <;> rfl
  | _ => rfl

theorem Outcome.rename_rename (ρ σ : ScopeId → ScopeId) (o : Outcome) :
    (o.rename ρ).rename σ = o.rename (σ ∘ ρ) := by
  cases o with
  | value v => simp [Outcome.rename, Value.rename_rename]
  | flow f => cases f <;> simp [Outcome.rename, Flow.rename, Value.rename_rename]
  | _ => rfl

@[simp] theorem Value.rename_id (v : Value) : v.rename id = v := by
  cases v with
  | callable identity c => cases c <;> rfl
  | _ => rfl

@[simp] theorem Bindings.rename_id (b : Bindings) : b.rename id = b := by
  have hsame : Bindings.rename id b = b.map id := by
    refine List.map_congr_left fun p _ => ?_
    rcases p with ⟨name, _ | v⟩
    · rfl
    · simp
  rw [hsame, List.map_id]

end Script
