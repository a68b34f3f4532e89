import Script.Proofs.Tape.Expr
import Script.Syntax.Read.Stmt

/-!
# Statements on a tape
-/

namespace Script

/-- The kinds of token that start a statement other than an expression. -/
def Kind.opensStatement : Kind → Bool
  | .funcWord | .letWord | .returnWord | .forWord | .whileWord | .breakWord | .continueWord
  | .ifWord | .leftBrace => true
  | _ => false

namespace Tape

/-- Where to go on after an error, given the token read last: after a semicolon, or before a
landmark. -/
def landmark : Token → List Token → Token × List Token
  | last, [] => (last, [])
  | last, token :: rest =>
    if last.kind == .semicolon || token.kind.isLandmark then (last, token :: rest)
    else landmark token rest

/-- Drops a token, and then the tokens up to the next landmark. -/
def recover (t : Tape) : Tape :=
  match t.rest with
  | [] => t
  | token :: rest =>
    let (last, rest) := landmark token rest
    { t with last, rest }

end Tape

namespace Parse

/-- Reads declarations until all tokens are read or one of kind `closing` follows, with those read
so far given in reverse. A declaration that cannot be read is left out. -/
def declarations (declaration : Parse Stmt) (closing : Option Kind) :
    Nat → List Stmt → Tape → List Stmt × Tape
  | 0, body, t => (body.reverse, t)
  | n + 1, body, t =>
    if t.atEnd || closing == some t.peek.kind then (body.reverse, t)
    else
      match declaration t with
      | (some s, t) => declarations declaration closing n (s :: body) t
      | (none, t) => declarations declaration closing n body t.recover

/-- Reads parameters, with those read so far given in reverse. -/
def parameters : Nat → List Token → Parse (List Token)
  | 0, _ => refuseNext .expectedParameterName
  | n + 1, params => do
    if params.length ≥ maxArguments then
      object (← peek) .tooManyParameters
    let param ← expect .name .expectedParameterName
    if params.any (·.source == param.source) then
      object param .duplicateParameter
    if ← accept .comma then parameters n (param :: params)
    else pure (param :: params).reverse

/-- Reads a function declaration after its keyword. Loops around it do not reach into its body. -/
def functionDeclaration (bound : Nat) (block : Parse (List Stmt)) : Parse Stmt := do
  let name ← expect .name .expectedFunctionName
  let _ ← expect .leftParen .expectedParenAfterFunctionName
  let params ← do
    if ← sees .rightParen then pure [] else parameters bound []
  let _ ← expect .rightParen .expectedParenAfterParameters
  let _ ← expect .leftBrace .expectedBraceBeforeBody
  let body ← withLoops (fun _ => 0) block
  pure (.func name params body)

/-- Reads a variable declaration after its keyword. -/
def variableDeclaration (expr : Parse Expr) : Parse Stmt := do
  let name ← expect .name .expectedVariableName
  let value ← do
    if ← accept .assign then some <$> expr else pure none
  let _ ← expect .semicolon .expectedSemicolonAfterDeclaration
  pure (.declare name value)

/-- Reads an expression and the semicolon after it. -/
def expressionStatement (expr : Parse Expr) : Parse Stmt := do
  let e ← expr
  let _ ← expect .semicolon .expectedSemicolonAfterExpression
  pure (.expr e)

/-- Reads the rest of a return statement. -/
def returnStatement (expr : Parse Expr) (keyword : Token) : Parse Stmt := do
  let value ← do
    if ← sees .semicolon then pure none else some <$> expr
  let _ ← expect .semicolon .expectedSemicolonAfterReturn
  pure (.ret keyword value)

/-- Reads the rest of a statement that leaves or repeats a loop. -/
def loopControl (keyword : Token) : Parse Stmt := do
  if (← loops) == 0 then
    object keyword (.outsideLoop keyword.source)
  let _ ← expect .semicolon (.expectedSemicolonAfterWord keyword.source)
  pure (if keyword.kind == .breakWord then .breakLoop keyword else .continueLoop keyword)

/-- Reads the first clause of a loop. -/
def firstClause (expr : Parse Expr) : Parse (Option Stmt) := do
  if ← accept .semicolon then pure none
  else if ← accept .letWord then some <$> variableDeclaration expr
  else some <$> expressionStatement expr

/-- Reads the rest of a loop with clauses. A missing condition always holds. -/
def forStatement (expr : Parse Expr) (stmt : Parse Stmt) : Parse Stmt := do
  let _ ← expect .leftParen .expectedParenAfterFor
  let first ← firstClause expr
  let condition ← do
    if ← sees .semicolon then pure (.constant (.bool true)) else expr
  let _ ← expect .semicolon .expectedSemicolonAfterCondition
  let increment ← do
    if ← sees .rightParen then pure none else some <$> expr
  let _ ← expect .rightParen .expectedParenAfterClauses
  let body ← withLoops (· + 1) stmt
  pure (.block (first.toList ++ [.forLoop condition increment body]))

/-- Reads the rest of a loop with a condition only. -/
def whileStatement (expr : Parse Expr) (stmt : Parse Stmt) : Parse Stmt := do
  let _ ← expect .leftParen .expectedParenAfterWhile
  let condition ← expr
  let _ ← expect .rightParen .expectedParenAfterCondition
  let body ← withLoops (· + 1) stmt
  pure (.whileLoop condition body)

/-- Reads the rest of a conditional statement. -/
def ifStatement (expr : Parse Expr) (stmt : Parse Stmt) : Parse Stmt := do
  let _ ← expect .leftParen .expectedParenAfterIf
  let condition ← expr
  let _ ← expect .rightParen .expectedParenAfterIfCondition
  let body ← stmt
  if ← accept .elseWord then
    let otherwise ← stmt
    pure (.ifElse condition body otherwise)
  else pure (.ifThen condition body)

mutual

/-- Reads a declaration or a statement. -/
def declaration : Nat → Parse Stmt
  | 0 => refuseNext .expectedExpression
  | n + 1 => do
    match (← peek).kind with
    | .funcWord => skip; functionDeclaration n (block n)
    | .letWord => skip; variableDeclaration (expression n)
    | _ => statement n

/-- Reads a statement. -/
def statement : Nat → Parse Stmt
  | 0 => refuseNext .expectedExpression
  | n + 1 => do
    let token ← peek
    match token.kind with
    | .returnWord => skip; returnStatement (expression n) token
    | .forWord => skip; forStatement (expression n) (statement n)
    | .whileWord => skip; whileStatement (expression n) (statement n)
    | .breakWord | .continueWord => skip; loopControl token
    | .ifWord => skip; ifStatement (expression n) (statement n)
    | .leftBrace => skip; Stmt.block <$> block n
    | _ => expressionStatement (expression n)

/-- Reads the declarations of a block and the brace that closes it. -/
def block : Nat → Parse (List Stmt)
  | 0 => refuseNext .expectedExpression
  | n + 1 => fun t =>
    let (body, t) := declarations (declaration n) (some .rightBrace) n [] t
    (do
      let _ ← expect .rightBrace .expectedBraceAfterBlock
      pure body : Parse (List Stmt)) t

end

/-- An expression, and whether it is all there is. -/
def expressionItem (n : Nat) : Parse (Expr × Bool) := do
  let e ← expression n
  if ← atEnd then pure (e, true)
  else
    let _ ← expect .semicolon .expectedSemicolonAfterExpression
    pure (e, false)

end Parse

namespace Tape

/-- A bound on the depth of nesting in the tokens of the tape. A token opens at most one block, which
is read in three steps: as a declaration, as a statement, and as a block. -/
def nesting (t : Tape) : Nat := 3 * t.rest.length + 5

/-- Reads the declarations up to the end, after those in `body`, which are given in reverse. -/
def finish (n : Nat) (body : List Stmt) (t : Tape) : Parsed (List Stmt) :=
  let (tree, t) := Parse.declarations (Parse.declaration n) none n body t
  ⟨tree, t.objections.reverse⟩

/-- Reads a line to its end, after the declarations in `body`. -/
def finishLine (n : Nat) (body : List Stmt) (t : Tape) : Parsed Line :=
  ⟨.statements (t.finish n body).tree, (t.finish n body).objections⟩

/-- Reads a line of a conversation. If the line starts with an expression and all tokens belong to
it, the line is that expression; otherwise it is a program. -/
def line (n : Nat) (t : Tape) : Parsed Line :=
  if t.atEnd || t.peek.kind.opensStatement then t.finishLine n []
  else
    match Parse.expressionItem n t with
    | (some (e, true), t) => ⟨.expression e, t.objections.reverse⟩
    | (some (e, false), t) => t.finishLine n [.expr e]
    | (none, t) => t.recover.finishLine n []

end Tape

end Script
