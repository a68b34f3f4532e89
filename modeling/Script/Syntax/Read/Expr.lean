import Script.Syntax.Read.Basic

/-! # Reading expressions

Assignment binds loosest and to the right; then come nine levels of operators that associate to the
left, then signs, calls and the smallest expressions. Recursion goes by a number that bounds how deep
the calls of parsers can be. -/

namespace Script.Read

open Parse

/-- Reads on after `left`, as long as operators of one level follow. -/
def chain (ops : List Kind) (operand : Read Expr) : Nat → Expr → Read Expr
  | 0, _ => stuck
  | n + 1, left => do
    if ← acceptAny ops then
      let op ← previous
      chain ops operand n (join left op (← operand))
    else pure left

/-- Reads operands joined by operators of the given levels, the loosest first. -/
def operation (bound : Nat) (operand : Read Expr) : List (List Kind) → Read Expr
  | [] => operand
  | ops :: tighter => do
    chain ops (operation bound operand tighter) bound (← operation bound operand tighter)

/-- Reads arguments after the first, given in reverse. -/
def moreArguments (argument : Read Expr) : Nat → List Expr → Read (List Expr)
  | 0, _ => stuck
  | n + 1, args => do
    if ← accept .comma then
      onlyIf (args.length ≥ maxArguments) (objectNext .tooManyArguments)
      moreArguments argument n ((← argument) :: args)
    else pure args.reverse

/-- Reads the arguments of a call, after its opening parenthesis. -/
def arguments (bound : Nat) (argument : Read Expr) : Read (List Expr) := do
  let args ← optionally .rightParen (do moreArguments argument bound [← argument])
  pure (args.getD [])

/-- Reads on after `callee`, as long as calls follow. -/
def calls (argument : Read Expr) : Nat → Expr → Read Expr
  | 0, _ => stuck
  | n + 1, callee => do
    if ← accept .leftParen then
      let args ← arguments n argument
      let paren ← expect .rightParen .expectedParenAfterArguments
      calls argument n (.call callee paren args)
    else pure callee

/-- Reads the smallest expressions: constants, variables and expressions in parentheses. -/
def primary (inner : Read Expr) : Read Expr := do
  if ← accept .falseWord then pure (.constant (.bool false))
  else if ← accept .trueWord then pure (.constant (.bool true))
  else if ← accept .nilWord then pure (.constant .nil)
  else if ← acceptAny [.number, .text] then
    let token ← previous
    match token.literal with
    | some value => pure (.constant value.toConstant)
    | none => refuse .literalWithoutValue
  else if ← accept .name then
    let token ← previous
    pure (.reference token)
  else if ← accept .leftParen then
    let e ← inner
    let _ ← expect .rightParen .expectedParenAfterExpression
    pure (.group e)
  else if ← acceptAny [.classWord, .thisWord, .superWord] then
    let token ← previous
    refuse (.reserved token.source)
  else refuseNext .expectedExpression

/-- Makes an assignment to `target`, which must be a variable. If it is not, the target stands for
the whole. -/
def assignment (target value : Expr) : Read Expr :=
  match target with
  | .reference name => pure (.assign name value)
  | _ => do
    object .badTarget
    pure target

mutual

/-- Reads an operand: signs, then a small expression, then calls. -/
def operand : Nat → Read Expr
  | 0 => stuck
  | n + 1 => do
    if ← acceptAny signs then
      let op ← previous
      pure (.unary op (← operand n))
    else calls (expression n) n (← primary (expression n))

/-- Reads an expression. -/
def expression : Nat → Read Expr
  | 0 => stuck
  | n + 1 => do
    let target ← operation n (operand n) precedence
    if ← accept .assign then assignment target (← expression n)
    else pure target

end

end Script.Read
