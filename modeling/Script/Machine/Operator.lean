import Script.Machine.Fault
import Script.Number.Arithmetic

/-! # Operators on values -/

namespace Script.Operator

/-- An operation on two numbers. -/
def onNumbers (f : Float → Float → Value) : Value → Value → Except Fault Value
  | .number x, .number y => .ok (f x y)
  | _, _ => .error .operandsNotNumbers

/-- The sum of two numbers, or two texts in a row. -/
def add : Value → Value → Except Fault Value
  | .number x, .number y => .ok (.number (x + y))
  | .text s, .text t => .ok (.text (s ++ t))
  | _, _ => .error .operandsNotAddable

/-- An operation on the bits of two whole numbers. -/
def onBits (f : Int32 → Int32 → Int32) : Value → Value → Except Fault Value
  | .number x, .number y =>
    match Number.bitwise? f x y with
    | some z => .ok (.number z)
    | none => .error .operandsNotWhole
  | _, _ => .error .operandsNotNumbers

/-- What an operator between two operands yields. -/
def apply (op : Kind) (left right : Value) : Except Fault Value :=
  match op with
  | .plus => add left right
  | .minus => onNumbers (fun x y => .number (x - y)) left right
  | .star => onNumbers (fun x y => .number (x * y)) left right
  | .slash => onNumbers (fun x y => .number (x / y)) left right
  | .percent => onNumbers (fun x y => .number (Number.remainder x y)) left right
  | .greater => onNumbers (fun x y => .bool (x > y)) left right
  | .greaterEqual => onNumbers (fun x y => .bool (x ≥ y)) left right
  | .less => onNumbers (fun x y => .bool (x < y)) left right
  | .lessEqual => onNumbers (fun x y => .bool (x ≤ y)) left right
  | .equal => .ok (.bool (left.equals right))
  | .bangEqual => .ok (.bool (!left.equals right))
  | .and => onBits (· &&& ·) left right
  | .or => onBits (· ||| ·) left right
  | .xor => onBits (· ^^^ ·) left right
  | _ => .error .unknownOperator

/-- An operation on one number. -/
def onNumber (f : Float → Float) : Value → Except Fault Value
  | .number x => .ok (.number (f x))
  | _ => .error .operandNotNumber

/-- What an operator in front of an operand yields. -/
def applySign (op : Kind) (operand : Value) : Except Fault Value :=
  match op with
  | .bang => .ok (.bool (!operand.isTrue))
  | .minus => onNumber (fun x => -x) operand
  | .plus => onNumber id operand
  | _ => .error .unknownSign

/-- Whether the left operand of an operator that may leave out its right operand decides. -/
def decides (op : Kind) (left : Value) : Bool :=
  if op == .orOr then left.isTrue else !left.isTrue

end Script.Operator
