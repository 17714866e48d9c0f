import LetterMachine.Binary64.Arithmetic
import LetterMachine.Instruction

/-!
# Values

A register holds integers of sixty-four bits and doubles.  An operator on two integers works on
integers and wraps around; if either operand is a double, both are taken as doubles.  Division
always gives a double.
-/

namespace LetterMachine

inductive Value where
  | integer (number : Int64)
  | float (number : Binary64)
  deriving DecidableEq

namespace Value

/-- The value as an integer.  A double loses its fraction. -/
def toInt64 : Value → Int64
  | .integer number => number
  | .float number => number.toInt64

/-- The value as a double.  An integer goes to the nearest one. -/
def toBinary64 : Value → Binary64
  | .integer number => Binary64.ofInt number.toInt
  | .float number => number

/-- The low eight bits of the value as an integer. -/
def toByte (value : Value) : UInt8 :=
  value.toInt64.toUInt64.toUInt8

def ofByte (byte : UInt8) : Value :=
  .integer (Int64.ofNat byte.toNat)

def ofBool (truth : Bool) : Value :=
  .integer (if truth then 1 else 0)

def isInteger : Value → Bool
  | .integer _ => true
  | .float _ => false

/-- A value counts as true unless it is zero as an integer. -/
def isTruthy (value : Value) : Bool :=
  value.toInt64 != 0

def not (value : Value) : Value :=
  ofBool !value.isTruthy

/-- An integer as a value, if it is in the range of `Int64`. -/
def ofInt? (whole : Int) : Option Value :=
  if hwhole : Int64.minValue.toInt ≤ whole ∧ whole ≤ Int64.maxValue.toInt then
    some (.integer (Int64.ofIntLE whole hwhole.1 hwhole.2))
  else
    none

/-- A double as an integer, if it is one in the range of `Int64`, and as a double otherwise. -/
def ofBinary64 (number : Binary64) : Value :=
  (number.toInt?.bind ofInt?).getD (.float number)

/-- Equality of kind and of number, in which zero has no sign and what is not a number differs from
itself. -/
def same : Value → Value → Bool
  | .integer left, .integer right => left == right
  | .float left, .float right => left.equal right
  | _, _ => false

/-- The result of an operation on two integers or else on two doubles. -/
def combine {result : Type} (onIntegers : Int64 → Int64 → result)
    (onFloats : Binary64 → Binary64 → result) (left right : Value) : result :=
  match left, right with
  | .integer left, .integer right => onIntegers left right
  | _, _ => onFloats left.toBinary64 right.toBinary64

end Value

namespace Operator

/-- The result of the operator.  The only one that is missing is that of the remainder of two
integers of which the right one is zero. -/
def result? (operator : Operator) (left right : Value) : Option Value :=
  match operator with
  | .add =>
    some (Value.combine (fun a b => .integer (a + b)) (fun a b => .float (a.add b)) left right)
  | .sub =>
    some (Value.combine (fun a b => .integer (a - b)) (fun a b => .float (a.sub b)) left right)
  | .mul =>
    some (Value.combine (fun a b => .integer (a * b)) (fun a b => .float (a.mul b)) left right)
  | .div => some (.float (left.toBinary64.div right.toBinary64))
  | .rem =>
    Value.combine (fun a b => if b = 0 then none else some (.integer (a % b)))
      (fun a b => some (.float (a.rem b))) left right
  | .eq => some (.ofBool (Value.combine (fun a b => a == b) Binary64.equal left right))
  | .gt =>
    some (.ofBool (Value.combine (fun a b => decide (b < a)) (fun a b => b.less a) left right))
  | .lt => some (.ofBool (Value.combine (fun a b => decide (a < b)) Binary64.less left right))
  | .and => some (.ofBool (left.isTruthy && right.isTruthy))
  | .or => some (.ofBool (left.isTruthy || right.isTruthy))

end Operator

end LetterMachine
