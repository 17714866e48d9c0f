import LetterMachine.Binary64

/-!
# Width of an index column

Positions are printed in columns of equal width, which is to be wide enough for the last one.  The
width is one more than the integral part of the decimal logarithm of the last position.  It is not
counted but computed in doubles: the position is rounded to one, and the logarithm is whatever the
system at hand makes of it.
-/

namespace LetterMachine

/-- The decimal logarithm of doubles as a system computes it.  How near it comes to the logarithm
of a number is up to the system. -/
class Logarithm where
  log10 : Binary64 → Binary64

/-- The width of a column for the positions below `count`. -/
def Decimal.indexWidth [Logarithm] (count : Nat) : Nat :=
  if count ≤ 1 then 1
  else (Logarithm.log10 (.ofInt (count - 1 : Nat))).floor.toUInt64.toNat + 1

end LetterMachine
