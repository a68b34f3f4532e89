import Script.Token

/-! # Program trees -/

namespace Script

/-- A value that is written down in a program. -/
inductive Constant where
  | nil
  | bool (b : Bool)
  | number (x : Float)
  | text (s : String)
deriving Repr

/-- The value written by a literal token. -/
def Literal.toConstant : Literal → Constant
  | number x => .number x
  | text s => .text s

/-- Expressions. Every operator, name and call keeps the token that an error in it is reported at:
for a call, its closing parenthesis. -/
inductive Expr where
  | assign (name : Token) (value : Expr)
  | binary (left : Expr) (op : Token) (right : Expr)
  | logical (left : Expr) (op : Token) (right : Expr)
  | unary (op : Token) (operand : Expr)
  | call (callee : Expr) (paren : Token) (args : List Expr)
  | group (inner : Expr)
  | constant (value : Constant)
  | reference (name : Token)
deriving Repr

instance : Inhabited Expr := ⟨.constant .nil⟩

/-- Statements. A loop with clauses has its first clause in the block around it. -/
inductive Stmt where
  | block (body : List Stmt)
  | breakLoop (keyword : Token)
  | continueLoop (keyword : Token)
  | expr (e : Expr)
  | forLoop (condition : Expr) (increment : Option Expr) (body : Stmt)
  | func (name : Token) (params : List Token) (body : List Stmt)
  | ifThen (condition : Expr) (body : Stmt)
  | ifElse (condition : Expr) (body otherwise : Stmt)
  | ret (keyword : Token) (value : Option Expr)
  | declare (name : Token) (value : Option Expr)
  | whileLoop (condition : Expr) (body : Stmt)
deriving Repr

instance : Inhabited Stmt := ⟨.block []⟩

/-- What a line of a conversation is: statements, or one expression whose value is wanted. -/
inductive Line where
  | statements (body : List Stmt)
  | expression (e : Expr)
deriving Repr

end Script
