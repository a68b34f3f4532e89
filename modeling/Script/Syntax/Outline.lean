import Script.Number.Shortest
import Script.Syntax

/-! # Outlines

The shape of a tree as text: every node in parentheses with its operator or keyword first, and every
statement inside another one on a line of its own, one step further to the right. -/

namespace Script

def Constant.outline : Constant → String
  | nil => "nil"
  | bool b => if b then "true" else "false"
  | number x => Number.text x
  | text s => "\"" ++ s ++ "\""

mutual

def Expr.outline : Expr → String
  | .assign name value => "(= " ++ name.source ++ " " ++ value.outline ++ ")"
  | .binary left op right =>
    "(" ++ op.source ++ " " ++ left.outline ++ " " ++ right.outline ++ ")"
  | .logical left op right =>
    "(" ++ op.source ++ " " ++ left.outline ++ " " ++ right.outline ++ ")"
  | .unary op operand => "(" ++ op.source ++ " " ++ operand.outline ++ ")"
  | .call callee _ args => "(call " ++ callee.outline ++ Expr.outlines args ++ ")"
  | .group inner => "(group " ++ inner.outline ++ ")"
  | .constant value => value.outline
  | .reference name => name.source

/-- The outlines of some expressions, each with a blank in front. -/
def Expr.outlines : List Expr → String
  | [] => ""
  | e :: es => " " ++ e.outline ++ Expr.outlines es

end

/-- The outline of an expression that may be missing, with a blank in front. -/
def Expr.outlineOption : Option Expr → String
  | none => ""
  | some e => " " ++ e.outline

/-- The start of a line that is `level` steps of `unit` to the right. -/
def newLine (unit : String) (level : Nat) : String :=
  "\n" ++ String.join (List.replicate level unit)

mutual

/-- The outline of a statement whose own line starts `level` steps of `unit` to the right. -/
def Stmt.outline (unit : String) (level : Nat) : Stmt → String
  | .block body => "(block" ++ Stmt.outlines unit (level + 1) body ++ ")"
  | .breakLoop _ => "(break)"
  | .continueLoop _ => "(continue)"
  | .expr e => "(; " ++ e.outline ++ ")"
  | .forLoop condition increment body =>
    "(for " ++ condition.outline ++ Expr.outlineOption increment ++
      newLine unit (level + 1) ++ body.outline unit (level + 1) ++ ")"
  | .func name params body =>
    "(func " ++ name.source ++ " (" ++ String.intercalate " " (params.map Token.source) ++ ")" ++
      Stmt.outlines unit (level + 1) body ++ ")"
  | .ifThen condition body =>
    "(if " ++ condition.outline ++
      newLine unit (level + 1) ++ body.outline unit (level + 1) ++ ")"
  | .ifElse condition body otherwise =>
    "(if-else " ++ condition.outline ++
      newLine unit (level + 1) ++ body.outline unit (level + 1) ++
      newLine unit (level + 1) ++ otherwise.outline unit (level + 1) ++ ")"
  | .ret _ value => "(return" ++ Expr.outlineOption value ++ ")"
  | .declare name value => "(let " ++ name.source ++ Expr.outlineOption value ++ ")"
  | .whileLoop condition body =>
    "(while " ++ condition.outline ++
      newLine unit (level + 1) ++ body.outline unit (level + 1) ++ ")"

/-- The outlines of some statements, each on a line of its own. -/
def Stmt.outlines (unit : String) (level : Nat) : List Stmt → String
  | [] => ""
  | s :: ss => newLine unit level ++ s.outline unit level ++ Stmt.outlines unit level ss

end

attribute [simp] Expr.outline Expr.outlines Stmt.outline Stmt.outlines

end Script
