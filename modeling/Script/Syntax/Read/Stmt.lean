import Script.Syntax.Read.Expr

/-! # Reading statements

A statement is known by its first token. When a declaration cannot be read, the tokens up to the
next likely start of a declaration are dropped and reading goes on from there. -/

namespace Script

namespace Read

open Parse

/-- Goes on to the next landmark: to the place after a semicolon, or before a likely start of a
declaration. -/
def landmark : Nat → Read Unit
  | 0 => stuck
  | n + 1 => do
    if ← atEnd then pure ()
    else if (← previous).kind == .semicolon then pure ()
    else if (← peek).kind.isLandmark then pure ()
    else
      let _ ← skip
      landmark n

/-- Drops a token, and then the tokens up to the next landmark. -/
def recover (bound : Nat) : Read Unit := do
  let _ ← skip
  landmark bound

/-- Reads a declaration, or if it cannot be read goes on behind it. -/
def attempt (bound : Nat) (declaration : Read Stmt) : Read (Option Stmt) := fun r =>
  match declaration r with
  | some (some s, r) => some (some (some s), r)
  | some (none, r) =>
    (do
      recover bound
      pure none : Read (Option Stmt)) r
  | none => none

/-- Whether there is no declaration to be read: the text ends, or it goes on with the kind of token
that ends the declarations. -/
def closes : Option Kind → Read Bool
  | none => atEnd
  | some k => do if ← sees k then pure true else atEnd

/-- Reads declarations to their end, with those read so far given in reverse. A declaration that
cannot be read is left out. -/
def declarations (declaration : Read (Option Stmt)) (closing : Option Kind) :
    Nat → List Stmt → Read (List Stmt)
  | 0, _ => stuck
  | n + 1, body => do
    if ← closes closing then pure body.reverse
    else
      let s ← declaration
      declarations declaration closing n (s.toList ++ body)

/-- Reads parameters, with those read so far given in reverse. -/
def parameters : Nat → List Token → Read (List Token)
  | 0, _ => stuck
  | n + 1, params => do
    onlyIf (params.length ≥ maxArguments) (objectNext .tooManyParameters)
    let param ← expect .name .expectedParameterName
    onlyIf (params.any (·.source == param.source)) (object .duplicateParameter)
    if ← accept .comma then parameters n (param :: params)
    else pure (param :: params).reverse

/-- Reads a function declaration after its keyword. -/
def functionDeclaration (bound : Nat) (block : Read (List Stmt)) : Read Stmt := do
  let name ← expect .name .expectedFunctionName
  let _ ← expect .leftParen .expectedParenAfterFunctionName
  let params ← optionally .rightParen (parameters bound [])
  let _ ← expect .rightParen .expectedParenAfterParameters
  let _ ← expect .leftBrace .expectedBraceBeforeBody
  let body ← outsideLoops block
  pure (.func name (params.getD []) body)

/-- Reads the value of a variable, if one is given. -/
def initialiser (expr : Read Expr) : Read (Option Expr) := do
  if ← accept .assign then some <$> expr else pure none

/-- Reads a variable declaration after its keyword. -/
def variableDeclaration (expr : Read Expr) : Read Stmt := do
  let name ← expect .name .expectedVariableName
  let value ← initialiser expr
  let _ ← expect .semicolon .expectedSemicolonAfterDeclaration
  pure (.declare name value)

/-- Whether a bare expression ends here, and with it the text. -/
def endsBare (bare : Bool) : Read Bool := if bare then atEnd else pure false

/-- Reads an expression and the semicolon after it. A bare one needs none if the text ends there. -/
def expressionStatement (expr : Read Expr) (bare : Bool) : Read Stmt := do
  let e ← expr
  if ← endsBare bare then
    setFound
    pure (.expr e)
  else
    let _ ← expect .semicolon .expectedSemicolonAfterExpression
    pure (.expr e)

/-- Reads the rest of a return statement. -/
def returnStatement (expr : Read Expr) : Read Stmt := do
  let keyword ← previous
  let value ← optionally .semicolon expr
  let _ ← expect .semicolon .expectedSemicolonAfterReturn
  pure (.ret keyword value)

/-- Reads the rest of a statement that leaves or repeats a loop. -/
def loopControl : Read Stmt := do
  let keyword ← previous
  let n ← loops
  onlyIf (n = 0) (object (.outsideLoop keyword.source))
  let _ ← expect .semicolon (.expectedSemicolonAfterWord keyword.source)
  pure (if keyword.kind == .breakWord then .breakLoop keyword else .continueLoop keyword)

/-- Reads the first clause of a loop. -/
def firstClause (expr : Read Expr) : Read (Option Stmt) := do
  if ← accept .semicolon then pure none
  else if ← accept .letWord then some <$> variableDeclaration expr
  else some <$> expressionStatement expr false

/-- Reads the rest of a loop with clauses. A missing condition always holds. -/
def forStatement (expr : Read Expr) (stmt : Read Stmt) : Read Stmt := do
  let _ ← expect .leftParen .expectedParenAfterFor
  let first ← firstClause expr
  let condition ← optionally .semicolon expr
  let _ ← expect .semicolon .expectedSemicolonAfterCondition
  let increment ← optionally .rightParen expr
  let _ ← expect .rightParen .expectedParenAfterClauses
  let body ← inLoop stmt
  pure (.block (first.toList ++
    [.forLoop (condition.getD (.constant (.bool true))) increment body]))

/-- Reads the rest of a loop with a condition only. -/
def whileStatement (expr : Read Expr) (stmt : Read Stmt) : Read Stmt := do
  let _ ← expect .leftParen .expectedParenAfterWhile
  let condition ← expr
  let _ ← expect .rightParen .expectedParenAfterCondition
  let body ← inLoop stmt
  pure (.whileLoop condition body)

/-- Reads the rest of a conditional statement. -/
def ifStatement (expr : Read Expr) (stmt : Read Stmt) : Read Stmt := do
  let _ ← expect .leftParen .expectedParenAfterIf
  let condition ← expr
  let _ ← expect .rightParen .expectedParenAfterIfCondition
  let body ← stmt
  if ← accept .elseWord then
    let otherwise ← stmt
    pure (.ifElse condition body otherwise)
  else pure (.ifThen condition body)

/-- Reads the rest of a declaration after its keyword, or else a statement. -/
def byKeyword (function binding stmt : Read Stmt) : Read Stmt := do
  if ← accept .funcWord then function
  else if ← accept .letWord then binding
  else stmt

mutual

/-- Reads a declaration or a statement, or if it cannot be read goes on behind it. Only a statement
that is not inside of another one can be a bare expression. -/
def declaration : Nat → Read (Option Stmt)
  | 0 => stuck
  | n + 1 => do
    let bare ← takeAllowed
    attempt n (byKeyword (functionDeclaration n (block n)) (variableDeclaration (expression n))
      (statement n bare))

/-- Reads a statement. -/
def statement : Nat → Bool → Read Stmt
  | 0, _ => stuck
  | n + 1, bare => do
    if ← accept .returnWord then returnStatement (expression n)
    else if ← accept .forWord then forStatement (expression n) (statement n false)
    else if ← accept .whileWord then whileStatement (expression n) (statement n false)
    else if ← acceptAny [.breakWord, .continueWord] then loopControl
    else if ← accept .ifWord then ifStatement (expression n) (statement n false)
    else if ← accept .leftBrace then Stmt.block <$> block n
    else expressionStatement (expression n) bare

/-- Reads the declarations of a block and the brace that closes it. -/
def block : Nat → Read (List Stmt)
  | 0 => stuck
  | n + 1 => do
    let body ← declarations (declaration n) (some .rightBrace) n []
    let _ ← expect .rightBrace .expectedBraceAfterBlock
    pure body

end

/-- Reads a whole program. -/
def program (depth : Nat) : Read (List Stmt) := declarations (declaration depth) none depth []

/-- Reads the declarations of a line, with those read so far given in reverse, unless the first one
turns out to be a bare expression. -/
def items (declaration : Read (Option Stmt)) : Nat → List Stmt → Read Line
  | 0, _ => stuck
  | n + 1, body => do
    if ← atEnd then pure (.statements body.reverse)
    else
      let s ← declaration
      setAllowed false
      match s with
      | some (.expr e) =>
        if ← found then pure (.expression e) else items declaration n (.expr e :: body)
      | s => items declaration n (s.toList ++ body)

/-- Reads a line of a conversation. If it is an expression without a semicolon, the line is that
expression; otherwise it is a program. -/
def line (depth : Nat) : Read Line := do
  setAllowed true
  items (declaration depth) depth []

end Read

/-- A tree together with the objections to the tokens it was read from, in the order in which they
were made. -/
structure Parsed (α : Type) where
  tree : α
  objections : List Objection

/-- What a parser makes of the tokens from the first one on, if it is not stuck and does not give
up. -/
def Read.run? {α : Type} (p : Read α) (ts : List Token) : Option (Parsed α) :=
  match p (.ofTokens ts) with
  | some (some tree, r) => some ⟨tree, r.objections.reverse⟩
  | _ => none

/-- A bound on how deep the calls of parsers can be. A token opens at most one block, which is read
in three steps: as a declaration, as a statement, and as a block. -/
def nestingOf (ts : List Token) : Nat := 3 * ts.length + 5

/-- Reads a whole program. -/
def parseProgram (ts : List Token) : Parsed (List Stmt) :=
  ((Read.program (nestingOf ts)).run? ts).getD ⟨[], []⟩

/-- Reads a line of a conversation. -/
def parseLine (ts : List Token) : Parsed Line :=
  ((Read.line (nestingOf ts)).run? ts).getD ⟨.statements [], []⟩

end Script
