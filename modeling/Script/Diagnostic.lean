import Script.Syntax.Read.Stmt
import Script.Token.Scan

/-! # Diagnostics

What is found wrong with a program before any of it runs. -/

namespace Script

/-- An error in the words of a program or in how they are put together. -/
inductive Diagnostic where
  | word (e : ScanError)
  | shape (start : Position) (place message : String)
deriving DecidableEq, Repr

namespace Diagnostic

def ofObjection (o : Objection) : Diagnostic :=
  .shape o.token.start o.place o.complaint.message

def start : Diagnostic → Position
  | word e => e.start
  | shape p _ _ => p

def report : Diagnostic → String
  | word e => e.report
  | shape p place message => p.text ++ " Error" ++ place ++ ": " ++ message

/-- Diagnostics by position; those at one position keep their order. -/
def sort (ds : List Diagnostic) : List Diagnostic :=
  ds.mergeSort fun d e => d.start.le e.start

end Diagnostic

/-- A tree, and what was found wrong with the text it was read from: first its words, then how they
are put together, each in the order of their discovery. -/
structure Examined (α : Type) where
  tree : α
  found : List Diagnostic

/-- Scans a text and parses its tokens. -/
def Examined.ofText {α : Type} (parse : List Token → Parsed α) (source : String) : Examined α :=
  let scanned := Scanned.ofText source
  let parsed := parse scanned.tokens
  ⟨parsed.tree, scanned.errors.map .word ++ parsed.objections.map .ofObjection⟩

end Script
