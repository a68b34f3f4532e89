/-! # Where output goes

A program writes to a sink, of which nothing is known but what it answers. It may take everything or
only so much, and it may fail once and go on as if nothing had been. -/

namespace Script

namespace Sink

/-- What can be asked of a sink. -/
inductive Operation where
  | write (text : String)
  | flush
deriving DecidableEq, Repr

/-- The bytes that are to be written. -/
def Operation.bytes : Operation → ByteArray
  | write text => text.toUTF8
  | flush => .empty

/-- What a sink answers. A text that could not be written may have been taken in part. -/
inductive Response where
  | done
  | failed (taken : Nat) (message : String)
deriving DecidableEq, Repr

end Sink

/-- The bytes taken so far, and what has been asked for, latest first. The answer to what is asked for
next may depend on all of this. -/
structure Sink where
  written : ByteArray := .empty
  past : List Sink.Operation := []
  device : ByteArray → List Sink.Operation → Sink.Operation → Sink.Response := fun _ _ _ => .done

namespace Sink

/-- What a sink says that takes no more. -/
def limitReached : String := "output limit reached"

/-- A sink that takes so many bytes. Of a text that does not fit, it takes the part that fits. -/
def limited (limit : Nat) : Sink where
  device written _ op :=
    if op.bytes.size ≤ limit - written.size then .done
    else .failed (limit - written.size) limitReached

def operate (s : Sink) (op : Operation) : Except String Unit × Sink :=
  match s.device s.written s.past op with
  | .done => (.ok (), { s with written := s.written ++ op.bytes, past := op :: s.past })
  | .failed taken message =>
    (.error message,
      { s with written := s.written ++ op.bytes.extract 0 taken, past := op :: s.past })

/-- Carries out one operation after the other, until one of them fails. -/
def carryOut : List Operation → Sink → Except String Unit × Sink
  | [], s => (.ok (), s)
  | op :: ops, s =>
    match s.operate op with
    | (.ok (), s) => carryOut ops s
    | (.error message, s) => (.error message, s)

/-- Writes a text, and flushes so that it is seen. -/
def delivery (text : String) : List Operation := [.write text, .flush]

/-- Writes a text on a line of its own. -/
def lineOf (text : String) : List Operation := [.write text, .write "\n"]

end Sink

end Script
