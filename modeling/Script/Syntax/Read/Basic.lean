import Script.Syntax.Objection
import Script.Syntax.Operators

/-! # Reading tokens

A parser goes through an array of tokens, the last of which ends the text. When it cannot go on it
notes an objection and gives up; it may also object and go on. -/

namespace Script

/-- The tokens, with one behind them that ends the text if the last of them does not. It is put where
the last of them starts. -/
def closed (ts : List Token) : List Token :=
  if ts.getLast?.any Token.isFinish then ts
  else ts ++ [.finish ((ts.getLast?.map Token.start).getD .start)]

/-- All the tokens, and the place of the one to be read next; how many loops that place is inside of;
whether the next declaration may be an expression without a semicolon, and whether there has been
one; and the objections so far, latest first. -/
structure Reader where
  tokens : Array Token
  index : Nat := 0
  loops : Nat := 0
  allowed : Bool := false
  found : Bool := false
  objections : List Objection := []

def Reader.ofTokens (ts : List Token) : Reader := { tokens := (closed ts).toArray }

/-- A parser yields a tree, or nothing if it gave up, and leaves the reader where it stopped. It is
stuck, without any outcome, if it looks for a token where there is none, if it leaves a loop it is not
in, or if it goes deeper than it was allowed to. -/
def Read (α : Type) : Type := Reader → Option (Option α × Reader)

namespace Read

variable {α β : Type}

@[inline] protected def pure (a : α) : Read α := fun r => some (some a, r)

@[inline] protected def bind (p : Read α) (f : α → Read β) : Read β := fun r =>
  match p r with
  | some (some a, r) => f a r
  | some (none, r) => some (none, r)
  | none => none

@[always_inline] instance : Monad Read where
  pure := Read.pure
  bind := Read.bind

def stuck : Read α := fun _ => none

def giveUp : Read α := fun r => some (none, r)

/-- The token to be read next. -/
def peek : Read Token := fun r => r.tokens[r.index]?.map fun token => (some token, r)

/-- The token read last. At the start, where there is none, it is the first one. -/
def previous : Read Token := fun r => r.tokens[r.index - 1]?.map fun token => (some token, r)

/-- Whether the next token ends the text. -/
def atEnd : Read Bool := do
  let token ← peek
  pure token.isFinish

/-- How many loops the place read is inside of. -/
def loops : Read Nat := fun r => some (some r.loops, r)

/-- Goes on to the next place. -/
def advance : Read Unit := fun r => some (some (), { r with index := r.index + 1 })

/-- Reads the next token, unless it ends the text. -/
def skip : Read Token := do
  if ← atEnd then previous
  else
    advance
    previous

/-- Whether the next token is of kind `k`, and does not end the text. -/
def sees (k : Kind) : Read Bool := do
  if ← atEnd then pure false
  else
    let token ← peek
    pure (token.kind == k)

/-- Reads the next token if it is of kind `k`, and says whether it was. -/
def accept (k : Kind) : Read Bool := do
  if ← sees k then
    let _ ← skip
    pure true
  else pure false

/-- Reads the next token if it is of one of the kinds `ks`, and says whether it was. -/
def acceptAny : List Kind → Read Bool
  | [] => pure false
  | k :: ks => do if ← accept k then pure true else acceptAny ks

def objectTo (token : Token) (complaint : Complaint) : Read Unit := fun r =>
  some (some (), { r with objections := ⟨token, complaint⟩ :: r.objections })

/-- Objects to the token read last, and goes on. -/
def object (complaint : Complaint) : Read Unit := do objectTo (← previous) complaint

/-- Objects to the next token, and goes on. -/
def objectNext (complaint : Complaint) : Read Unit := do objectTo (← peek) complaint

/-- Objects to the token read last, and gives up. -/
def refuse (complaint : Complaint) : Read α := do
  object complaint
  giveUp

/-- Objects to the next token, and gives up. -/
def refuseNext (complaint : Complaint) : Read α := do
  objectNext complaint
  giveUp

/-- Reads a token of kind `k`, or else gives up. -/
def expect (k : Kind) (complaint : Complaint) : Read Token := do
  if ← sees k then skip else refuseNext complaint

/-- Reads what `p` reads, unless a token of kind `k` follows. -/
def optionally (k : Kind) (p : Read α) : Read (Option α) := do
  if ← sees k then pure none else some <$> p

/-- Does what `p` does, but only if `c` holds. -/
def onlyIf (c : Prop) [Decidable c] (p : Read Unit) : Read Unit := if c then p else pure ()

/-- Reads the body of a loop. Whether it gave up or not, it is one loop further out afterwards than
where it stopped. -/
def inLoop (p : Read α) : Read α := fun r =>
  match p { r with loops := r.loops + 1 } with
  | some (result, r) =>
    match r.loops with
    | 0 => none
    | n + 1 => some (result, { r with loops := n })
  | none => none

/-- Reads the body of a function, which the loops around the function do not reach into. -/
def outsideLoops (p : Read α) : Read α := fun r =>
  match p { r with loops := 0 } with
  | some (result, r') => some (result, { r' with loops := r.loops })
  | none => none

/-- Whether the next declaration may be an expression without a semicolon. The one after it may
not. -/
def takeAllowed : Read Bool := fun r => some (some r.allowed, { r with allowed := false })

def setAllowed (allowed : Bool) : Read Unit := fun r => some (some (), { r with allowed })

/-- Whether there has been an expression without a semicolon. -/
def found : Read Bool := fun r => some (some r.found, r)

def setFound : Read Unit := fun r => some (some (), { r with found := true })

end Read

end Script
