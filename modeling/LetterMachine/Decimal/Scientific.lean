import LetterMachine.Decimal.Digits
import LetterMachine.Rounding

/-!
# Numbers in scientific notation

A positive number is written by its significant digits and the power of ten of the first of them.
This module rounds a fraction to a given number of significant digits and places the decimal point.
-/

namespace LetterMachine.Decimal

/-- The fraction multiplied by a power of ten. -/
def scaled (numerator denominator : Nat) (power : Int) : Nat × Nat :=
  (numerator * 10 ^ power.toNat, denominator * 10 ^ (-power).toNat)

/-- The power of ten of the first significant digit of a positive fraction. -/
def leadingExponent (numerator denominator : Nat) : Int :=
  if denominator ≤ numerator then
    (digits (numerator / denominator)).length - 1
  else
    -((digits ((denominator - 1) / numerator)).length : Int)

/-- Significant digits, and the power of ten of the first of them. -/
structure Scientific where
  digits : List Char
  exponent : Int
  deriving DecidableEq, Repr

namespace Scientific

/-- A coefficient of `places` digits.  If rounding up has carried it to one digit more, the last of
them, a zero, is dropped and the exponent moves with it. -/
def ofCoefficient (places coefficient : Nat) (exponent : Int) : Scientific :=
  if coefficient = 10 ^ places then
    ⟨Decimal.digits (10 ^ (places - 1)), exponent + 1⟩
  else
    ⟨Decimal.digits coefficient, exponent⟩

/-- A positive fraction rounded to a number of significant digits, a half to the even neighbour. -/
def rounded (places numerator denominator : Nat) : Scientific :=
  let exponent := leadingExponent numerator denominator
  let (upper, lower) := scaled numerator denominator (places - 1 - exponent)
  ofCoefficient places (roundDiv .toEven upper lower) exponent

/-- The digits before the decimal point in positional notation. -/
def whole (number : Scientific) : List Char :=
  if number.exponent < 0 then ['0']
  else
    let places := number.exponent.toNat + 1
    number.digits.take places ++ List.replicate (places - number.digits.length) '0'

/-- The digits after the decimal point in positional notation. -/
def fraction (number : Scientific) : List Char :=
  if number.exponent < 0 then
    List.replicate (number.exponent.natAbs - 1) '0' ++ number.digits
  else
    number.digits.drop (number.exponent.toNat + 1)

/-- The first significant digit. -/
def head (number : Scientific) : List Char :=
  number.digits.take 1

/-- The significant digits after the first. -/
def tail (number : Scientific) : List Char :=
  number.digits.drop 1

end Scientific

def withoutTrailingZeros (digits : List Char) : List Char :=
  (digits.reverse.dropWhile (· == '0')).reverse

/-- The whole part and the fraction with a point between them, or the whole part alone. -/
def pointed (whole fraction : List Char) : List Char :=
  if fraction.isEmpty then whole else whole ++ '.' :: fraction

def sign (negative : Bool) : List Char :=
  if negative then ['-'] else []

end LetterMachine.Decimal
