import Script.Machine.Step

/-!
# Changing what can be called

Of a callable a program sees its identity, whether it can be called with some arguments, how it is
printed, and what a call does. So when every callable among some values is replaced by another one
with the same identity that is printed alike, no operator and no native function tells the
difference.
-/

namespace Script

/-- A value with another callable in the place of the one it is. -/
def Value.onCallables (f : Callable → Callable) : Value → Value
  | .callable identity c => .callable identity (f c)
  | v => v

def Bindings.onValues (f : Value → Value) (b : Bindings) : Bindings :=
  b.map fun p => (p.1, p.2.map f)

section
variable (f : Callable → Callable)

@[simp] theorem Value.isTrue_onCallables (v : Value) : (v.onCallables f).isTrue = v.isTrue := by
  cases v <;> rfl

theorem Value.equals_onCallables (v u : Value) :
    (v.onCallables f).equals (u.onCallables f) = v.equals u := by
  cases v <;> cases u <;> rfl

theorem Operator.onNumbers_onCallables (g : Float → Float → Value) (left right : Value) :
    onNumbers g (left.onCallables f) (right.onCallables f) = onNumbers g left right := by
  cases left <;> cases right <;> rfl

theorem Operator.add_onCallables (left right : Value) :
    add (left.onCallables f) (right.onCallables f) = add left right := by
  cases left <;> cases right <;> rfl

theorem Operator.onBits_onCallables (g : Int32 → Int32 → Int32) (left right : Value) :
    onBits g (left.onCallables f) (right.onCallables f) = onBits g left right := by
  cases left <;> cases right <;> rfl

theorem Operator.apply_onCallables (op : Kind) (left right : Value) :
    apply op (left.onCallables f) (right.onCallables f) = apply op left right := by
  cases op <;> simp only [apply, add_onCallables, onNumbers_onCallables, onBits_onCallables,
    Value.equals_onCallables]

theorem Operator.onNumber_onCallables (g : Float → Float) (operand : Value) :
    onNumber g (operand.onCallables f) = onNumber g operand := by
  cases operand <;> rfl

theorem Operator.applySign_onCallables (op : Kind) (operand : Value) :
    applySign op (operand.onCallables f) = applySign op operand := by
  cases op <;> simp only [applySign, onNumber_onCallables, Value.isTrue_onCallables]

theorem Operator.decides_onCallables (op : Kind) (left : Value) :
    decides op (left.onCallables f) = decides op left := by
  simp only [decides, Value.isTrue_onCallables]

variable {f} (hf : ∀ c, (f c).text = c.text)
include hf

theorem Value.render_onCallables (v : Value) : (v.onCallables f).render = v.render := by
  cases v with
  | callable identity c => exact hf c
  | _ => rfl

theorem World.rendered_onCallables (args : List Value) :
    World.rendered (args.map (Value.onCallables f)) = World.rendered args := by
  simp [World.rendered, Function.comp_def, Value.render_onCallables hf]

end

section
variable (f : Value → Value)

theorem Bindings.lookup_onValues (name : String) (b : Bindings) :
    (b.onValues f).lookup name = (b.lookup name).map (Option.map f) := by
  induction b with
  | nil => rfl
  | cons p rest ih =>
    obtain ⟨key, value⟩ := p
    simp only [Bindings.onValues, List.map_cons, List.lookup_cons] at ih ⊢
    cases name == key with
    | true => rfl
    | false => exact ih

theorem Bindings.isSome_lookup_onValues (name : String) (b : Bindings) :
    ((b.onValues f).lookup name).isSome = (b.lookup name).isSome := by
  rw [lookup_onValues, Option.isSome_map]

theorem Bindings.set_onValues (name : String) (value : Value) (b : Bindings) :
    (Bindings.set name value b).onValues f = Bindings.set name (f value) (b.onValues f) := by
  induction b with
  | nil => rfl
  | cons p rest ih =>
    obtain ⟨key, old⟩ := p
    simp only [Bindings.onValues, List.map_cons, Bindings.set] at ih ⊢
    split
    · simp
    · rw [List.map_cons, ih]

end

end Script
