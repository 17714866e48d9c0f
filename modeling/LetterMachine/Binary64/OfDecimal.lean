import LetterMachine.Binary64
import LetterMachine.Decimal.Scientific

/-!
# Doubles from decimal notation
-/

namespace LetterMachine.Binary64

/-- The double nearest to `coefficient * 10 ^ exponent`.  A number below `10 ^ (-330)` is nearest to
zero and one from `10 ^ 330` on is beyond the range, so such powers of ten are not computed. -/
def ofDecimal (negative : Bool) (coefficient : Nat) (exponent : Int) : Binary64 :=
  let magnitude := exponent + (Decimal.digits coefficient).length
  if coefficient = 0 ∨ magnitude ≤ -330 then zero negative
  else if 330 < magnitude then .infinite negative
  else
    let (numerator, denominator) := Decimal.scaled (coefficient * one) 1 exponent
    ofUnits negative numerator denominator

end LetterMachine.Binary64
