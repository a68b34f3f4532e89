import Script.Value

/-! # Scopes

All scopes of a run, kept in slots. A scope that is left is released, and its slot is handed out
again, unless a function that was declared in it or inside it may still need it. -/

namespace Script

/-- The names bound in one scope. A name may be bound without having a value yet. -/
abbrev Bindings := List (String × Option Value)

/-- Gives a name that is bound another value. -/
def Bindings.set (name : String) (value : Value) : Bindings → Bindings
  | [] => []
  | (key, old) :: rest =>
    if key == name then (key, some value) :: rest else (key, old) :: Bindings.set name value rest

/-- A scope: its names, the scope around it, whether a function keeps it, and whether its slot is
free. -/
structure Scope where
  bindings : Bindings := []
  parent : Option ScopeId := none
  captured : Bool := false
  free : Bool := false

instance : Inhabited Scope := ⟨{}⟩

/-- The scopes of a run, and the free slots among them, the one freed last first. A store that does
not recycle keeps every scope for ever. -/
structure Scopes where
  slots : Array Scope
  spare : List ScopeId := []
  recycles : Bool := true

/-- Why a name has no value. -/
inductive LookupError where
  | undefined
  | uninitialized
deriving DecidableEq, Repr

namespace Scopes

/-- A store with nothing but an empty global scope. -/
def empty : Scopes := { slots := #[{}] }

/-- The scope in a slot. -/
def scope (s : Scopes) (id : ScopeId) : Scope := s.slots.getD id.slot {}

/-- Changes the scope in a slot. -/
def modify (s : Scopes) (id : ScopeId) (f : Scope → Scope) : Scopes :=
  { s with slots := s.slots.modify id.slot f }

/-- How many scopes are in use. -/
def live (s : Scopes) : Nat := s.slots.size - s.spare.length

/-- Makes a new scope inside another one, in the slot freed last or else in a new slot. -/
def push (s : Scopes) (parent : ScopeId) : ScopeId × Scopes :=
  let fresh : Scope := { parent := some parent }
  match s.spare with
  | id :: spare => (id, { s.modify id (fun _ => fresh) with spare })
  | [] => (⟨s.slots.size⟩, { s with slots := s.slots.push fresh })

/-- Frees the slot of a scope, unless it is the global one, is kept by a function, or is free
already. -/
def release (s : Scopes) (id : ScopeId) : Scopes :=
  let scope := s.scope id
  if !s.recycles || id == .global || scope.captured || scope.free then s
  else { s.modify id (fun scope => { scope with bindings := [], free := true }) with
    spare := id :: s.spare }

/-- Keeps a scope and those around it, up to the first that is kept already, for at most `n`
scopes. -/
def captureWithin : Nat → Scopes → ScopeId → Scopes
  | 0, s, _ => s
  | n + 1, s, id =>
    let scope := s.scope id
    if scope.captured then s
    else
      let s := s.modify id fun scope => { scope with captured := true }
      match scope.parent with
      | none => s
      | some parent => captureWithin n s parent

/-- Keeps a scope and every scope around it for the rest of the run. -/
def capture (s : Scopes) (id : ScopeId) : Scopes := captureWithin s.slots.size s id

/-- The nearest scope, from `id` outward and among the first `n`, that binds a name. -/
def ownerWithin (s : Scopes) (name : String) : Nat → ScopeId → Option ScopeId
  | 0, _ => none
  | n + 1, id =>
    let scope := s.scope id
    if (scope.bindings.lookup name).isSome then some id
    else
      match scope.parent with
      | none => none
      | some parent => s.ownerWithin name n parent

/-- The nearest scope from `id` outward that binds a name. A chain of scopes has at most as many
members as there are slots. -/
def owner (s : Scopes) (id : ScopeId) (name : String) : Option ScopeId :=
  s.ownerWithin name s.slots.size id

/-- Binds a name in a scope, and says whether that was possible: a name is bound only once. -/
def define (s : Scopes) (id : ScopeId) (name : String) (value : Option Value) : Bool × Scopes :=
  if ((s.scope id).bindings.lookup name).isSome then (false, s)
  else (true, s.modify id fun scope => { scope with bindings := (name, value) :: scope.bindings })

/-- The value of a name as seen from a scope. -/
def get (s : Scopes) (id : ScopeId) (name : String) : Except LookupError Value :=
  match s.owner id name with
  | none => .error .undefined
  | some owner =>
    match (s.scope owner).bindings.lookup name with
    | some (some value) => .ok value
    | _ => .error .uninitialized

/-- Gives a name as seen from a scope another value, and says whether the name is bound. -/
def assign (s : Scopes) (id : ScopeId) (name : String) (value : Value) : Bool × Scopes :=
  match s.owner id name with
  | none => (false, s)
  | some owner =>
    (true, s.modify owner fun scope => { scope with bindings := Bindings.set name value scope.bindings })

/-- Binds native functions in the global scope, with identities from `identity` on. -/
def register (s : Scopes) : Nat → List Native → Scopes
  | _, [] => s
  | identity, n :: rest =>
    let value := Value.callable identity (.native n)
    (s.define .global n.name (some value)).2.register (identity + 1) rest

/-- A store whose global scope binds the functions that are there from the start. -/
def initial : Scopes := empty.register 0 Native.library

end Scopes

end Script
