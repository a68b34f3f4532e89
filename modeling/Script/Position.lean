/-! # Positions in a program text -/

namespace Script

/-- A line and a column, both counted from one. Columns count characters. Whoever counts does so with
32 bits and a sign, as `advance` does, so these are the values of two such counters. -/
structure Position where
  line : Int
  column : Int
deriving DecidableEq, Repr, Inhabited

namespace Position

/-- Where a text starts. -/
def start : Position := ⟨1, 1⟩

/-- What 32 bits and a sign hold of a number. Behind the largest that they can hold comes the
smallest. -/
def wrap (n : Int) : Int := (Int32.ofInt n).toInt

/-- The position after one more character. -/
def advance (p : Position) (c : Char) : Position :=
  if c == '\n' then ⟨wrap (p.line + 1), 1⟩ else ⟨p.line, wrap (p.column + 1)⟩

/-- The position after a stretch of text. -/
def after (p : Position) (cs : List Char) : Position :=
  cs.foldl advance p

/-- How a position is named in messages. -/
def text (p : Position) : String :=
  s!"[line {p.line} column {p.column}]"

/-- The order of positions in a text: by line, then by column. -/
def le (p q : Position) : Bool :=
  p.line < q.line || (p.line == q.line && p.column ≤ q.column)

end Position

end Script
