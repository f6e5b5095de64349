import Lox.Evaluation.Error
import Lox.Number.Remainder

/-!
# What operators compute

Every value can be compared for equality.  `+` adds numbers, and if one operand is a string it joins
the texts of both.  All other operators take numbers only.
-/

namespace Lox

/-- The value of a unary operator for a value of its operand. -/
def UnaryOp.apply (op : UnaryOp) (operand : Value) : Except RuntimeError.Cause Value :=
  match op, operand with
  | not, v => .ok (.boolean !v.isTruthy)
  | negate, .number x => .ok (.number (-x))
  | negate, _ => .error .operandNotANumber

/-- The sum of two values. -/
def Value.add (left right : Value) : Except RuntimeError.Cause Value :=
  match left, right with
  | number x, number y => .ok (number (x + y))
  | string s, v => .ok (string (s ++ v.text))
  | v, string s => .ok (string (v.text ++ s))
  | _, _ => .error .operandsNotAddable

/-- The value of an operator that takes numbers only. -/
def BinaryOp.applyToNumbers (op : BinaryOp) (x y : Float) : Except RuntimeError.Cause Value :=
  match op with
  | equal => .ok (.boolean (x == y))
  | notEqual => .ok (.boolean !(x == y))
  | greater => .ok (.boolean (decide (y < x)))
  | greaterEqual => .ok (.boolean (decide (y ≤ x)))
  | less => .ok (.boolean (decide (x < y)))
  | lessEqual => .ok (.boolean (decide (x ≤ y)))
  | add => .ok (.number (x + y))
  | subtract => .ok (.number (x - y))
  | multiply => .ok (.number (x * y))
  | divide => if y == 0.0 then .error .divisionByZero else .ok (.number (x / y))
  | remainder =>
      if y == 0.0 then .error .remainderByZero else .ok (.number (Number.remainder x y))

/-- The value of a binary operator for values of its operands. -/
def BinaryOp.apply (op : BinaryOp) (left right : Value) : Except RuntimeError.Cause Value :=
  match op with
  | equal => .ok (.boolean (left.isEqual right))
  | notEqual => .ok (.boolean !left.isEqual right)
  | add => left.add right
  | _ =>
      match left, right with
      | .number x, .number y => op.applyToNumbers x y
      | _, _ => .error .operandsNotNumbers

/-- Does a logical operator leave its right operand alone, for this value of the left one? -/
def LogicalOp.isSettledBy (op : LogicalOp) (left : Value) : Bool :=
  match op with
  | or => left.isTruthy
  | and => !left.isTruthy

end Lox
