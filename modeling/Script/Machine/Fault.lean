import Script.Value

/-! # What can go wrong while a program runs -/

namespace Script

/-- Why a program cannot go on. -/
inductive Fault where
  | undefined (name : String)
  | uninitialized (name : String)
  | redefined (name : String)
  | operandNotNumber
  | operandsNotNumbers
  | operandsNotAddable
  | operandsNotWhole
  | unknownSign
  | unknownOperator
  | notCallable
  | wrongCount (arity : Arity) (given : Nat)
  | tooDeep
  | writeFailed (message : String)
  | readFailed (message : String)
deriving DecidableEq, Repr

/-- The fault in words. -/
def Fault.message : Fault → String
  | undefined name => "Undefined variable '" ++ name ++ "'."
  | uninitialized name => "Variable '" ++ name ++ "' must be initialized before use."
  | redefined name => "Variable '" ++ name ++ "' is already defined in this scope."
  | operandNotNumber => "Operand must be a number."
  | operandsNotNumbers => "Operands must be numbers."
  | operandsNotAddable => "Operands must be two numbers or two strings."
  | operandsNotWhole => "Operands must be integer numbers."
  | unknownSign => "Unknown unary operator."
  | unknownOperator => "Unknown binary operator."
  | notCallable => "Can only call functions."
  | wrongCount arity given => "Expected " ++ arity.text ++ " arguments but got " ++ toString given ++ "."
  | tooDeep => "Stack overflow."
  | writeFailed message => "Could not write output: " ++ message
  | readFailed message => "Could not read input: " ++ message

/-- A fault, and the token it is reported at. -/
structure RuntimeError where
  token : Token
  fault : Fault
deriving Repr

def RuntimeError.report (e : RuntimeError) : String :=
  e.token.start.text ++ " " ++ e.fault.message

end Script
