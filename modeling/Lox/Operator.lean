import Lox.RuntimeError
import Lox.Value

/-!
Operators on values whose operands have been evaluated.
-/

namespace Lox.Operator

def unary (operator : TokenKind) (operand : Value) : Except RuntimeFault Value :=
  match operator, operand with
  | .minus, .number value => .ok (.number value.negate)
  | .minus, _ => .error .operandNotNumber
  | .bang, value => .ok (.bool (!value.isTruthy))
  | _, _ => .error .invalidUnaryOperator

def onNumbers (left right : Value) (function : Number → Number → Except RuntimeFault Value) :
    Except RuntimeFault Value :=
  match left, right with
  | .number first, .number second => function first second
  | _, _ => .error .operandsNotNumbers

def add (left right : Value) : Except RuntimeFault Value :=
  match left, right with
  | .number first, .number second => .ok (.number (first.add second))
  | .string first, .string second => .ok (.string (first ++ second))
  | _, _ => .error .operandsNotAddable

def binary (operator : TokenKind) (left right : Value) : Except RuntimeFault Value :=
  match operator with
  | .plus => add left right
  | .minus => onNumbers left right fun first second => .ok (.number (first.subtract second))
  | .star => onNumbers left right fun first second => .ok (.number (first.multiply second))
  | .slash =>
      onNumbers left right fun first second =>
        if second.equals .zero then .error .divisionByZero
        else .ok (.number (first.divide second))
  | .greater => onNumbers left right fun first second => .ok (.bool (second.less first))
  | .greaterEqual => onNumbers left right fun first second => .ok (.bool (second.lessOrEqual first))
  | .less => onNumbers left right fun first second => .ok (.bool (first.less second))
  | .lessEqual => onNumbers left right fun first second => .ok (.bool (first.lessOrEqual second))
  | .equalEqual => .ok (.bool (left.equals right))
  | .bangEqual => .ok (.bool (!left.equals right))
  | _ => .error .invalidBinaryOperator

def shortCircuits (operator : TokenKind) (left : Value) : Bool :=
  match operator with
  | .orWord => left.isTruthy
  | _ => !left.isTruthy

end Lox.Operator
