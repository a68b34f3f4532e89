import Script.Syntax.Objection
import Script.Syntax.Operators

/-!
# Parsers that read a tape

A tape is what matters of a reader: the tokens that are left, and the one read last. Parsers that take
tokens from its front need no places, never look where there is no token, and have every loop counted
by those around it. They are easier to reason about, and read what the parsers of readers read: see
`parseProgram_eq` and `parseLine_eq`.
-/

namespace Script

/-- The tokens still to be read, none of which ends the text, the token that does, and the token
read last; then how many loops the place read is inside of, and the objections so far, latest
first. -/
structure Tape where
  last : Token
  rest : List Token
  stop : Token
  loops : Nat := 0
  objections : List Objection := []

namespace Tape

/-- A tape of the tokens before the first one that ends the text. If none does, the text ends at the
start of its last token. -/
def ofTokens (ts : List Token) : Tape :=
  let stop := (ts.find? Token.isFinish).getD
    (.finish ((ts.getLast?.map Token.start).getD .start))
  { last := ts.headD stop, rest := ts.takeWhile (!·.isFinish), stop }

/-- The token to be read next. -/
def peek (t : Tape) : Token := t.rest.headD t.stop

/-- Whether all tokens have been read. -/
def atEnd (t : Tape) : Bool := t.rest.isEmpty

/-- The tape with one more token read, unless all have been. -/
def skip (t : Tape) : Tape :=
  match t.rest with
  | [] => t
  | token :: rest => { t with last := token, rest }

def object (t : Tape) (token : Token) (complaint : Complaint) : Tape :=
  { t with objections := ⟨token, complaint⟩ :: t.objections }

end Tape

/-- A parser yields a tree, or nothing if it gave up, and leaves the tape where it stopped. -/
def Parse (α : Type) : Type := Tape → Option α × Tape

namespace Parse

variable {α β : Type}

@[inline] protected def pure (a : α) : Parse α := fun t => (some a, t)

@[inline] protected def bind (p : Parse α) (f : α → Parse β) : Parse β := fun t =>
  match p t with
  | (some a, t) => f a t
  | (none, t) => (none, t)

@[always_inline] instance : Monad Parse where
  pure := Parse.pure
  bind := Parse.bind

/-- The token to be read next. -/
def peek : Parse Token := fun t => (some t.peek, t)

/-- The token read last. -/
def last : Parse Token := fun t => (some t.last, t)

/-- Whether all tokens have been read. -/
def atEnd : Parse Bool := fun t => (some t.atEnd, t)

/-- How many loops the place read is inside of. -/
def loops : Parse Nat := fun t => (some t.loops, t)

/-- Reads the next token, whatever it is. -/
def skip : Parse Unit := fun t => (some (), t.skip)

/-- Whether the next token is of kind `k`. -/
def sees (k : Kind) : Parse Bool := fun t => (some (t.rest.head?.any (·.kind == k)), t)

/-- Reads the next token if it is of one of the kinds `ks`. -/
def acceptAny (ks : List Kind) : Parse (Option Token) := fun t =>
  match t.rest with
  | [] => (some none, t)
  | token :: _ => if ks.contains token.kind then (some (some token), t.skip) else (some none, t)

/-- Reads the next token if it is of kind `k`, and says whether it was. -/
def accept (k : Kind) : Parse Bool := fun t =>
  match t.rest with
  | [] => (some false, t)
  | token :: _ => if token.kind == k then (some true, t.skip) else (some false, t)

/-- Objects to a token, and goes on. -/
def object (token : Token) (complaint : Complaint) : Parse Unit := fun t =>
  (some (), t.object token complaint)

/-- Objects to a token, and gives up. -/
def refuse (token : Token) (complaint : Complaint) : Parse α := fun t =>
  (none, t.object token complaint)

/-- Objects to the next token, and gives up. -/
def refuseNext (complaint : Complaint) : Parse α := fun t =>
  (none, t.object t.peek complaint)

/-- Reads a token of kind `k`, or else gives up. -/
def expect (k : Kind) (complaint : Complaint) : Parse Token := fun t =>
  match t.rest with
  | [] => (none, t.object t.stop complaint)
  | token :: _ =>
    if token.kind == k then (some token, t.skip) else (none, t.object token complaint)

/-- Reads with another number of loops around; afterwards, whether it gave up or not, the number is
what it was. -/
def withLoops (change : Nat → Nat) (p : Parse α) : Parse α := fun t =>
  let (result, after) := p { t with loops := change t.loops }
  (result, { after with loops := t.loops })

end Parse

end Script
