import Script.Token

/-! # Objections to a program

What can be wrong with a row of tokens, and at which of them. -/

namespace Script

/-- What is wrong with a program, apart from where. -/
inductive Complaint where
  | expectedFunctionName
  | expectedParenAfterFunctionName
  | expectedParameterName
  | expectedParenAfterParameters
  | expectedBraceBeforeBody
  | expectedVariableName
  | expectedSemicolonAfterDeclaration
  | expectedSemicolonAfterReturn
  | expectedSemicolonAfterWord (word : String)
  | expectedParenAfterFor
  | expectedSemicolonAfterCondition
  | expectedParenAfterClauses
  | expectedParenAfterWhile
  | expectedParenAfterCondition
  | expectedParenAfterIf
  | expectedParenAfterIfCondition
  | expectedBraceAfterBlock
  | expectedSemicolonAfterExpression
  | expectedParenAfterArguments
  | expectedParenAfterExpression
  | expectedExpression
  | tooManyParameters
  | tooManyArguments
  | duplicateParameter
  | outsideLoop (word : String)
  | badTarget
  | literalWithoutValue
  | reserved (word : String)
deriving DecidableEq, Repr

/-- The complaint in words. -/
def Complaint.message : Complaint → String
  | expectedFunctionName => "Expected function name."
  | expectedParenAfterFunctionName => "Expected '(' after function name."
  | expectedParameterName => "Expected parameter name."
  | expectedParenAfterParameters => "Expected ')' after parameters."
  | expectedBraceBeforeBody => "Expected '\x7b' before function body."
  | expectedVariableName => "Expected a variable name."
  | expectedSemicolonAfterDeclaration => "Expected ';' after variable declaration."
  | expectedSemicolonAfterReturn => "Expected ';' after return value."
  | expectedSemicolonAfterWord word => "Expected ';' after '" ++ word ++ "'."
  | expectedParenAfterFor => "Expected '(' after 'for'."
  | expectedSemicolonAfterCondition => "Expected ';' after loop condition."
  | expectedParenAfterClauses => "Expected ')' after for clauses."
  | expectedParenAfterWhile => "Expected '(' after 'while'."
  | expectedParenAfterCondition => "Expected ')' after condition."
  | expectedParenAfterIf => "Expected '(' after 'if'."
  | expectedParenAfterIfCondition => "Expected ')' after if condition."
  | expectedBraceAfterBlock => "Expected '\x7d' after block."
  | expectedSemicolonAfterExpression => "Expected ';' after expression."
  | expectedParenAfterArguments => "Expected ')' after arguments."
  | expectedParenAfterExpression => "Expected ')' after expression."
  | expectedExpression => "Expected expression."
  | tooManyParameters => "Can't have more than 255 parameters."
  | tooManyArguments => "Can't have more than 255 arguments."
  | duplicateParameter => "Duplicate parameter name."
  | outsideLoop word => "Must be inside a loop to use '" ++ word ++ "'."
  | badTarget => "Invalid assignment target."
  | literalWithoutValue => "Literal token without a value."
  | reserved word => "'" ++ word ++ "' is reserved."

/-- A complaint about a token. -/
structure Objection where
  token : Token
  complaint : Complaint
deriving Repr

/-- How the place of an objection is named. -/
def Objection.place (o : Objection) : String :=
  if o.token.isFinish then " at end" else " at '" ++ o.token.source ++ "'"

end Script
