import LetterMachine.Binary64
import LetterMachine.Decimal.Scientific

/-!
# Doubles in six significant digits

The notation of printed doubles: six significant digits, less the zeros that end a fraction.  A
number from `10 ^ (-4)` up to `10 ^ 6` is written positionally, any other one with an exponent of at
least two digits.  The exponent is that of the number rounded to six digits, which may be one more
than that of the number itself.  Positional notation is rounded a second time, from the number
itself, to as many places behind the point as the exponent leaves of the six digits.
-/

namespace LetterMachine

namespace Decimal

/-- A fraction rounded to a number of places behind the point, a half to the even neighbour: the
digits before the point, of which there is at least one, and those behind it. -/
def positional (places numerator denominator : Nat) : List Char × List Char :=
  let count := roundDiv .toEven (numerator * 10 ^ places) denominator
  let digits := padded (places + 1) count
  (digits.take (digits.length - places), digits.drop (digits.length - places))

/-- A positive fraction in positional notation or with an exponent, whichever its size asks for. -/
def general (numerator denominator : Nat) : List Char :=
  let number := Scientific.rounded 6 numerator denominator
  if -4 ≤ number.exponent ∧ number.exponent < 6 then
    let (whole, fraction) := positional (5 - number.exponent).toNat numerator denominator
    pointed whole (withoutTrailingZeros fraction)
  else
    pointed number.head (withoutTrailingZeros number.tail) ++
      'e' :: (if number.exponent < 0 then '-' else '+') :: padded 2 number.exponent.natAbs

end Decimal

namespace Binary64

def sixDigits : Binary64 → List Char
  | .nan .. => ['n', 'a', 'n']
  | .infinite negative => Decimal.sign negative ++ ['i', 'n', 'f']
  | .finite negative magnitude =>
    Decimal.sign negative ++
      if magnitude.units = 0 then ['0'] else Decimal.general magnitude.units one

end Binary64

end LetterMachine
