/-! # The log -/

namespace Script

/-- How important a record of the log is. -/
inductive Level where
  | error
  | warn
  | info
  | debug
  | trace
deriving DecidableEq, Repr

namespace Level

/-- The most important level is the lowest. -/
def rank : Level → Nat
  | error => 1
  | warn => 2
  | info => 3
  | debug => 4
  | trace => 5

def label : Level → String
  | error => "error"
  | warn => "warn"
  | info => "info"
  | debug => "debug"
  | trace => "trace"

/-- The least important level that is recorded. -/
def threshold (verbose : Bool) : Level := if verbose then debug else warn

/-- Whether records of a level are kept under a threshold. -/
def keeps (limit level : Level) : Bool := level.rank ≤ limit.rank

end Level

/-- A log, which records nothing until it is opened with a threshold. -/
structure Log where
  limit : Option Level := none
deriving DecidableEq, Repr

namespace Log

/-- Opens a log, and says whether that was possible: a log is opened only once. -/
def openWith (l : Log) (verbose : Bool) : Bool × Log :=
  match l.limit with
  | some _ => (false, l)
  | none => (true, ⟨some (.threshold verbose)⟩)

/-- The line that a record makes in the log, or nothing if the record is not kept. -/
def record (l : Log) (level : Level) (message : String) : String :=
  match l.limit with
  | some limit => if limit.keeps level then "[" ++ level.label ++ "] " ++ message ++ "\n" else ""
  | none => ""

end Log

end Script
