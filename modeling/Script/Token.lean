import Script.Position

/-! # Tokens

The words of a program: marks, names, keywords, literals, and the end of the text. -/

namespace Script

/-- What kind of word a token is. -/
inductive Kind where
  | leftParen | rightParen | leftBrace | rightBrace
  | comma | dot | semicolon
  | minus | plus | star | slash | percent
  | bang | bangEqual | assign | equal
  | greater | greaterEqual | less | lessEqual
  | and | andAnd | or | orOr | xor
  | name | text | number
  | classWord | elseWord | falseWord | forWord | funcWord | ifWord | nilWord | returnWord
  | superWord | thisWord | trueWord | letWord | whileWord | breakWord | continueWord
  | finish
deriving DecidableEq, Repr, Inhabited

/-- The value that a number or text token stands for. -/
inductive Literal where
  | number (x : Float)
  | text (s : String)
deriving Repr

/-- A word of a program: its kind, the characters it was written with, the value it stands for if it
is a literal, and where it starts. -/
structure Token where
  kind : Kind
  source : String
  literal : Option Literal := none
  start : Position
deriving Repr

namespace Token

/-- The end of a text at `p`. -/
def finish (p : Position) : Token := ⟨.finish, "", none, p⟩

instance : Inhabited Token := ⟨finish .start⟩

/-- Whether the token ends its text. -/
def isFinish (t : Token) : Bool := t.kind == .finish

/-- How a token is shown: its characters between backquotes, those of a text between quotation
marks as well. -/
def text (t : Token) : String :=
  match t.kind with
  | .finish => "Eof"
  | .text => "`\"" ++ t.source ++ "\"`"
  | _ => "`" ++ t.source ++ "`"

end Token

/-- Characters that start a name. -/
def isNameStart (c : Char) : Bool := c.isAlpha || c == '_'

/-- Characters that continue a name. -/
def isNamePart (c : Char) : Bool := isNameStart c || c.isDigit

/-- The names that are words of the language. -/
def keywords : List (String × Kind) :=
  [("class", .classWord), ("else", .elseWord), ("false", .falseWord), ("for", .forWord),
   ("func", .funcWord), ("if", .ifWord), ("nil", .nilWord), ("return", .returnWord),
   ("super", .superWord), ("this", .thisWord), ("true", .trueWord), ("let", .letWord),
   ("while", .whileWord), ("break", .breakWord), ("continue", .continueWord)]

/-- A name that is no keyword is a name. -/
def nameKind (s : String) : Kind := (keywords.lookup s).getD .name

end Script
