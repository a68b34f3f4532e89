import Script.Proofs.Tape.Basic

/-!
# Expressions on a tape
-/

namespace Script.Parse

/-- Reads on after `left`, as long as operators of one level follow. -/
def chain (ops : List Kind) (operand : Parse Expr) : Nat → Expr → Parse Expr
  | 0, left => pure left
  | n + 1, left => do
    match ← acceptAny ops with
    | none => pure left
    | some op => chain ops operand n (join left op (← operand))

/-- Reads operands joined by operators of the given levels, the loosest first. -/
def operation (bound : Nat) (operand : Parse Expr) : List (List Kind) → Parse Expr
  | [] => operand
  | ops :: tighter => do
    chain ops (operation bound operand tighter) bound (← operation bound operand tighter)

/-- Reads arguments after the first, given in reverse. -/
def moreArguments (argument : Parse Expr) : Nat → List Expr → Parse (List Expr)
  | 0, args => pure args.reverse
  | n + 1, args => do
    if ← accept .comma then
      if args.length ≥ maxArguments then
        object (← peek) .tooManyArguments
      moreArguments argument n ((← argument) :: args)
    else pure args.reverse

/-- Reads the arguments of a call, after its opening parenthesis. -/
def arguments (bound : Nat) (argument : Parse Expr) : Parse (List Expr) := do
  if ← sees .rightParen then pure []
  else moreArguments argument bound [← argument]

/-- Reads on after `callee`, as long as calls follow. -/
def calls (argument : Parse Expr) : Nat → Expr → Parse Expr
  | 0, callee => pure callee
  | n + 1, callee => do
    if ← accept .leftParen then
      let args ← arguments n argument
      let paren ← expect .rightParen .expectedParenAfterArguments
      calls argument n (.call callee paren args)
    else pure callee

/-- Reads the smallest expressions: constants, variables and expressions in parentheses. -/
def primary (inner : Parse Expr) : Parse Expr := do
  let token ← peek
  match token.kind with
  | .falseWord => skip; pure (.constant (.bool false))
  | .trueWord => skip; pure (.constant (.bool true))
  | .nilWord => skip; pure (.constant .nil)
  | .number | .text =>
    skip
    match token.literal with
    | some value => pure (.constant value.toConstant)
    | none => refuse token .literalWithoutValue
  | .name => skip; pure (.reference token)
  | .leftParen =>
    skip
    let e ← inner
    let _ ← expect .rightParen .expectedParenAfterExpression
    pure (.group e)
  | .classWord | .thisWord | .superWord => skip; refuse token (.reserved token.source)
  | _ => refuse token .expectedExpression

/-- Makes an assignment to `target`, which must be a variable. If it is not, the target stands for
the whole. -/
def assignment (target value : Expr) : Parse Expr :=
  match target with
  | .reference name => pure (.assign name value)
  | _ => do
    object (← last) .badTarget
    pure target

mutual

/-- Reads an operand: signs, then a small expression, then calls. -/
def operand : Nat → Parse Expr
  | 0 => refuseNext .expectedExpression
  | n + 1 => do
    match ← acceptAny signs with
    | some op => pure (.unary op (← operand n))
    | none => calls (expression n) n (← primary (expression n))

/-- Reads an expression. -/
def expression : Nat → Parse Expr
  | 0 => refuseNext .expectedExpression
  | n + 1 => do
    let target ← operation n (operand n) precedence
    if ← accept .assign then assignment target (← expression n)
    else pure target

end

end Script.Parse
