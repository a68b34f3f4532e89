import Script.Number.Read
import Script.Text.Blank
import Script.Text.Utf8
import Script.Value

/-! # Where input comes from

A program reads lines. Nothing is known of where they come from but what comes of each attempt to read
one; the bytes of a text are one such input. -/

namespace Script

/-- What comes of an attempt to read a line: the end of the input, a line together with the
characters that end it, or the reason why there is none. -/
inductive Input.Reading where
  | ended
  | line (text : String)
  | failed (message : String)
deriving DecidableEq, Repr

/-- What comes of each attempt, and how many there have been. Lines may follow behind failures, and
behind the end. -/
structure Input where
  readings : Nat → Input.Reading := fun _ => .ended
  count : Nat := 0

namespace Input

def isLineEnd (c : Char) : Bool := c == '\r' || c == '\n'

/-- The reading without the carriage returns and newlines at the end of the line. -/
def Reading.trimEnd : Reading → Reading
  | line text => .line (String.ofList (Text.dropEndWhile isLineEnd text.toList))
  | reading => reading

/-- Reads a line without the carriage returns and newlines at its end. -/
def readLine (i : Input) : Reading × Input :=
  ((i.readings i.count).trimEnd, { i with count := i.count + 1 })

/-- What a line of input means: a number if it reads as one, blanks at its ends aside, and otherwise
the text itself. -/
def valueOf (line : String) : Value :=
  match Number.read? (Text.trim line.toList) with
  | some x => .number x
  | none => .text line

/-! ## The bytes of a text -/

/-- Splits off the first line, with the byte that ends it if there is one. -/
def splitLine (bytes : List UInt8) : List UInt8 × List UInt8 :=
  match bytes.dropWhile (· != 10) with
  | [] => (bytes, [])
  | newline :: rest => (bytes.takeWhile (· != 10) ++ [newline], rest)

/-- Reads a line from some bytes, together with the characters that end it. -/
def takeLine (bytes : List UInt8) : Reading × List UInt8 :=
  if bytes.isEmpty then (.ended, bytes)
  else
    let (line, rest) := splitLine bytes
    match Text.decode? line with
    | some text => (.line text, rest)
    | none => (.failed Text.undecodable, rest)

/-- The bytes that are left when so many lines have been read. -/
def leftAfter : Nat → List UInt8 → List UInt8
  | 0, bytes => bytes
  | n + 1, bytes => leftAfter n (takeLine bytes).2

def ofBytes (bytes : List UInt8) : Input where
  readings n := (takeLine (leftAfter n bytes)).1

end Input

end Script
