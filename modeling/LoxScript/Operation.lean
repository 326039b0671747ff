import LoxScript.Fault
import LoxScript.Value

/-!
What operators do with values.
-/

namespace LoxScript

variable {ρ ε : Type}

def UnaryOp.apply : UnaryOp → ValueOf ρ ε → Except Fault (ValueOf ρ ε)
  | not, v => .ok (.bool !v.isTruthy)
  | negate, .number x => .ok (.number (-x))
  | negate, _ => .error .operandNotNumber

/-- Numbers are added, and a string is put together with the text of anything. -/
def ArithOp.apply : ArithOp → ValueOf ρ ε → ValueOf ρ ε → Except Fault (ValueOf ρ ε)
  | add, .number x, .number y => .ok (.number (x + y))
  | add, .string s, v => .ok (.string (s ++ v.display))
  | add, v, .string s => .ok (.string (v.display ++ s))
  | add, _, _ => .error .operandsNotAddable
  | subtract, .number x, .number y => .ok (.number (x - y))
  | multiply, .number x, .number y => .ok (.number (x * y))
  | divide, .number x, .number y =>
    if y == 0 then .error .divisionByZero else .ok (.number (x / y))
  | _, _, _ => .error .operandsNotNumbers

def OrderOp.compare : OrderOp → Float → Float → Bool
  | greater, x, y => y < x
  | greaterEqual, x, y => y ≤ x
  | less, x, y => x < y
  | lessEqual, x, y => x ≤ y

def OrderOp.apply : OrderOp → ValueOf ρ ε → ValueOf ρ ε → Except Fault (ValueOf ρ ε)
  | op, .number x, .number y => .ok (.bool (op.compare x y))
  | _, _, _ => .error .operandsNotNumbers

def BinaryOp.apply : BinaryOp → ValueOf ρ ε → ValueOf ρ ε → Except Fault (ValueOf ρ ε)
  | equal, v, w => .ok (.bool (v.equals w))
  | notEqual, v, w => .ok (.bool !(v.equals w))
  | arith op, v, w => op.apply v w
  | order op, v, w => op.apply v w

/-- The left operand decides, so that the right one is not evaluated. -/
def LogicalOp.isDecidedBy : LogicalOp → ValueOf ρ ε → Bool
  | and, v => !v.isTruthy
  | or, v => v.isTruthy

end LoxScript
