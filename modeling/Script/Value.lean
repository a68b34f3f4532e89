import Script.Number.Shortest
import Script.Syntax
import Script.Text.Quoted

/-! # Values

What programs compute with, and what can be called. -/

namespace Script

/-- The name of a scope: the slot that holds it. -/
structure ScopeId where
  slot : Nat
deriving DecidableEq, Repr

/-- The scope that every other one is inside of. -/
def ScopeId.global : ScopeId := ⟨0⟩

/-- How many arguments a call takes. -/
inductive Arity where
  | exactly (count : Nat)
  | any
deriving DecidableEq, Repr

namespace Arity

def accepts : Arity → Nat → Bool
  | exactly count, given => count == given
  | any, _ => true

def text : Arity → String
  | exactly count => toString count
  | any => "any number of"

/-- An arity as it appears in a description. -/
def describe : Arity → String
  | exactly count => "Fixed(" ++ toString count ++ ")"
  | any => "Variadic"

end Arity

/-- What the functions that are there from the start do. -/
inductive Action where
  | clock
  | print
  | println
  | read
  | exit
deriving DecidableEq, Repr

/-- A function that is not written in the language. -/
structure Native where
  name : String
  arity : Arity
  action : Action
deriving Repr

/-- The functions that are there from the start. -/
def Native.library : List Native :=
  [⟨"clock", .exactly 0, .clock⟩, ⟨"print", .any, .print⟩, ⟨"println", .any, .println⟩,
   ⟨"read", .exactly 0, .read⟩, ⟨"exit", .exactly 0, .exit⟩]

/-- A native function described in full, apart from what it does. -/
def Native.describe (n : Native) : String :=
  "NativeFunction \x7b name: " ++ Text.quoted n.name ++ ", arity: " ++ n.arity.describe ++ ", .. \x7d"

/-- What can be called: a declared function together with the scope of its declaration, or a native
one. -/
inductive Callable where
  | function (name : Token) (params : List Token) (body : List Stmt) (closure : ScopeId)
  | native (n : Native)
deriving Repr

namespace Callable

def name : Callable → String
  | function name _ _ _ => name.source
  | native n => n.name

def arity : Callable → Arity
  | function _ params _ _ => .exactly params.length
  | native n => n.arity

def text : Callable → String
  | function name _ _ _ => "<fn " ++ name.source ++ ">"
  | native n => "<native fn " ++ n.name ++ ">"

end Callable

/-- A value. Each execution of a function declaration makes a callable with an identity of its
own. -/
inductive Value where
  | nil
  | bool (b : Bool)
  | number (x : Float)
  | text (s : String)
  | callable (identity : Nat) (c : Callable)
deriving Repr

namespace Value

instance : Inhabited Value := ⟨nil⟩

def ofConstant : Constant → Value
  | .nil => nil
  | .bool b => bool b
  | .number x => number x
  | .text s => text s

/-- Whether a value counts as true: all do except nil, false, zero and the empty text. -/
def isTrue : Value → Bool
  | nil => false
  | bool b => b
  | number x => x != 0
  | text s => !s.isEmpty
  | callable _ _ => true

/-- Whether two values are equal. Values of different kinds never are, and callables are equal if
they have the same identity. -/
def equals : Value → Value → Bool
  | nil, nil => true
  | bool a, bool b => a == b
  | number x, number y => x == y
  | text s, text t => s == t
  | callable i _, callable j _ => i == j
  | _, _ => false

/-- How a value is printed. -/
def render : Value → String
  | nil => "nil"
  | bool b => if b then "true" else "false"
  | number x => Number.text x
  | text s => s
  | callable _ c => c.text

end Value

end Script
