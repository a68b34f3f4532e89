import Script.Syntax

/-! # Operators and landmarks

The tables that parsers go by. -/

namespace Script

/-- The kinds of token at which reading goes on after an error. -/
def Kind.isLandmark : Kind → Bool
  | .classWord | .funcWord | .letWord | .forWord | .ifWord | .whileWord | .returnWord => true
  | _ => false

namespace Parse

/-- The operators between two operands: those that bind equally tight together, the loosest
first. -/
def precedence : List (List Kind) :=
  [[.orOr], [.andAnd], [.or], [.xor], [.and], [.equal, .bangEqual],
   [.less, .lessEqual, .greater, .greaterEqual], [.plus, .minus], [.star, .slash, .percent]]

/-- The operators in front of an operand. -/
def signs : List Kind := [.bang, .minus, .plus]

/-- The most parameters of a function and arguments of a call. -/
def maxArguments : Nat := 255

/-- Two operands joined by an operator. The two operators that may leave out their right operand
are kept apart. -/
def join (left : Expr) (op : Token) (right : Expr) : Expr :=
  if op.kind == .orOr || op.kind == .andAnd then .logical left op right else .binary left op right

end Parse

end Script
