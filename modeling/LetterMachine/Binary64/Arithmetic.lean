import LetterMachine.Binary64

/-!
# Arithmetic of doubles

Sums, differences, products, quotients and remainders, each the exact result rounded once, and the
order of the doubles.  Zero keeps a sign: a product or quotient has the sign of its operands, and a
sum of zero is negative only if both of its operands are.
-/

namespace LetterMachine.Binary64

def neg : Binary64 → Binary64
  | .nan negative payload => .nan (!negative) payload
  | .infinite negative => .infinite !negative
  | .finite negative magnitude => .finite (!negative) magnitude

def add : Binary64 → Binary64 → Binary64
  | .nan .., _ | _, .nan .. => quietNan
  | .infinite left, .infinite right => if left = right then .infinite left else quietNan
  | .infinite left, .finite _ _ => .infinite left
  | .finite _ _, .infinite right => .infinite right
  | .finite left leftMagnitude, .finite right rightMagnitude =>
    let sum := signedUnits left leftMagnitude + signedUnits right rightMagnitude
    ofUnits (if sum = 0 then left && right else decide (sum < 0)) sum.natAbs 1

def sub (left right : Binary64) : Binary64 :=
  add left right.neg

def mul : Binary64 → Binary64 → Binary64
  | .nan .., _ | _, .nan .. => quietNan
  | .infinite left, .infinite right => .infinite (left != right)
  | .infinite left, .finite right magnitude =>
    if magnitude.units = 0 then quietNan else .infinite (left != right)
  | .finite left magnitude, .infinite right =>
    if magnitude.units = 0 then quietNan else .infinite (left != right)
  | .finite left leftMagnitude, .finite right rightMagnitude =>
    ofUnits (left != right) (leftMagnitude.units * rightMagnitude.units) one

def div : Binary64 → Binary64 → Binary64
  | .nan .., _ | _, .nan .. => quietNan
  | .infinite _, .infinite _ => quietNan
  | .infinite left, .finite right _ => .infinite (left != right)
  | .finite left _, .infinite right => zero (left != right)
  | .finite left leftMagnitude, .finite right rightMagnitude =>
    if rightMagnitude.units = 0 then
      if leftMagnitude.units = 0 then quietNan else .infinite (left != right)
    else
      ofUnits (left != right) (leftMagnitude.units * one) rightMagnitude.units

/-- What is left of the dividend after a whole number of divisors, with the sign of the dividend. -/
def rem : Binary64 → Binary64 → Binary64
  | .nan .., _ | _, .nan .. => quietNan
  | .infinite _, _ => quietNan
  | .finite left magnitude, .infinite _ => .finite left magnitude
  | .finite left leftMagnitude, .finite _ rightMagnitude =>
    if rightMagnitude.units = 0 then quietNan
    else ofUnits left (leftMagnitude.units % rightMagnitude.units) 1

/-- The place of a double in the order of all of them, which both zeros share.  What is not a number
has no place. -/
def rank? : Binary64 → Option Int
  | .nan .. => none
  | .infinite negative => some (if negative then -(rangeLimit : Int) else rangeLimit)
  | .finite negative magnitude => some (signedUnits negative magnitude)

def equal (left right : Binary64) : Bool :=
  match left.rank?, right.rank? with
  | some leftRank, some rightRank => leftRank == rightRank
  | _, _ => false

def less (left right : Binary64) : Bool :=
  match left.rank?, right.rank? with
  | some leftRank, some rightRank => decide (leftRank < rightRank)
  | _, _ => false

end LetterMachine.Binary64
