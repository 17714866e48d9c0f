import LetterMachine.Rounding

/-!
# Double-precision numbers

A finite double is a whole number of units of `2 ^ -1074`, the smallest positive double.  Doubles
with `53` or fewer binary digits in these units are all the multiples of one unit; with each further
binary digit the spacing between neighbours doubles.  A number is therefore held as the count of
its units, together with the fact that the count is on the grid for its size and in range.

Every operation computes its exact result as a fraction of units and rounds once: to the nearest
double, to the even one of two that are equally near, and to infinity from half a spacing above the
largest double on.
-/

namespace LetterMachine

namespace Binary64

/-- The number of digits of precision. -/
def precision : Nat := 53

/-- The number of digits behind the leading one. -/
def fractionBits : Nat := precision - 1

/-- The spacing of doubles around a count of units, as a power of two. -/
def gridExponent (units : Nat) : Nat :=
  units.log2 - (precision - 1)

/-- The counts of units that are doubles, if the range is left out of account. -/
def OnGrid (units : Nat) : Prop :=
  2 ^ gridExponent units ∣ units

instance (units : Nat) : Decidable (OnGrid units) :=
  inferInstanceAs (Decidable (_ ∣ _))

/-- The least count of units that is out of range, that of the power of two `2 ^ 1024`. -/
def rangeLimit : Nat := 2 ^ (2098 : Nat)

/-- The number of units in one. -/
def one : Nat := 2 ^ (1074 : Nat)

/-- The absolute value of a finite double. -/
structure Magnitude where
  units : Nat
  onGrid : OnGrid units
  inRange : units < rangeLimit
  deriving DecidableEq

theorem Magnitude.ext {left right : Magnitude} (hunits : left.units = right.units) :
    left = right := by
  cases left
  cases right
  simp_all

/-- What an encoding holds behind its sign and its exponent if it is not a number: some digits, of
which not all are zero. -/
structure Payload where
  bits : Nat
  positive : 0 < bits
  inRange : bits < 2 ^ fractionBits
  deriving DecidableEq

/-- The payload with the first digit alone. -/
def Payload.quiet : Payload where
  bits := 2 ^ (fractionBits - 1)
  positive := Nat.two_pow_pos _
  inRange := Nat.pow_lt_pow_right (by decide) (by decide)

/-- The grid point nearest to a fraction of units. -/
def nearestUnits (numerator denominator : Nat) : Nat :=
  let spacing := 2 ^ gridExponent (numerator / denominator)
  roundDiv .toEven numerator (denominator * spacing) * spacing

/-- A count of at most `53` binary digits, moved up by any number of places, is on the grid. -/
theorem onGrid_mul_two_pow {significand : Nat} (hsignificand : significand ≤ 2 ^ precision)
    (exponent : Nat) : OnGrid (significand * 2 ^ exponent) := by
  rcases Nat.eq_zero_or_pos significand with hzero | hpos
  · simp [OnGrid, hzero]
  have hproduct : significand * 2 ^ exponent ≠ 0 :=
    Nat.ne_of_gt (Nat.mul_pos hpos (Nat.two_pow_pos exponent))
  rcases Nat.lt_or_eq_of_le hsignificand with hlt | heq
  · refine Nat.dvd_trans (Nat.pow_dvd_pow 2 ?_) (Nat.dvd_mul_left _ _)
    have hlog : (significand * 2 ^ exponent).log2 < precision + exponent := by
      rw [Nat.log2_lt hproduct, Nat.pow_add]
      exact Nat.mul_lt_mul_of_pos_right hlt (Nat.two_pow_pos exponent)
    grind [gridExponent, precision]
  · subst heq
    rw [← Nat.pow_add]
    refine Nat.pow_dvd_pow 2 ?_
    grind [gridExponent, Nat.log2_two_pow]

/-- A fraction is rounded to at most as many units of the spacing as the precision allows. -/
theorem roundDiv_spacing_le (numerator denominator : Nat) :
    roundDiv .toEven numerator (denominator * 2 ^ gridExponent (numerator / denominator)) ≤
      2 ^ precision := by
  refine Nat.le_trans (roundDiv_le _ _ _) (Nat.succ_le_of_lt ?_)
  rw [← Nat.div_div_eq_div_mul]
  apply Nat.div_lt_of_lt_mul
  rw [← Nat.pow_add]
  refine Nat.lt_of_lt_of_le Nat.lt_log2_self (Nat.pow_le_pow_right (by decide) ?_)
  grind [gridExponent, precision]

theorem onGrid_nearestUnits (numerator denominator : Nat) :
    OnGrid (nearestUnits numerator denominator) :=
  onGrid_mul_two_pow (roundDiv_spacing_le numerator denominator) _

end Binary64

/-- A double.  Of what is not a number there are as many values as there are encodings. -/
inductive Binary64 where
  | nan (negative : Bool) (payload : Binary64.Payload)
  | infinite (negative : Bool)
  | finite (negative : Bool) (magnitude : Binary64.Magnitude)
  deriving DecidableEq

namespace Binary64

/-- What an operation gives that has no number as its result.  Which of the values it is has been
left open by the arithmetic, and nothing that is printed depends on it. -/
def quietNan : Binary64 :=
  .nan false .quiet

/-- The double nearest to a fraction of units. -/
def ofUnits (negative : Bool) (numerator denominator : Nat) : Binary64 :=
  if hrange : nearestUnits numerator denominator < rangeLimit then
    .finite negative ⟨_, onGrid_nearestUnits numerator denominator, hrange⟩
  else
    .infinite negative

def zero (negative : Bool) : Binary64 :=
  ofUnits negative 0 1

/-- The double nearest to an integer.  There is no negative zero among them. -/
def ofInt (value : Int) : Binary64 :=
  ofUnits (decide (value < 0)) (value.natAbs * one) 1

/-- The number of units of a finite double, with its sign. -/
def signedUnits (negative : Bool) (magnitude : Magnitude) : Int :=
  if negative then -(magnitude.units : Int) else magnitude.units

/-- The integral part of a finite double. -/
def integralPart (negative : Bool) (magnitude : Magnitude) : Int :=
  (signedUnits negative magnitude).tdiv one

/-- The integer with the same value, for a double that has a fraction of zero. -/
def toInt? : Binary64 → Option Int
  | .finite negative magnitude =>
    if magnitude.units % one = 0 then some (integralPart negative magnitude) else none
  | _ => none

/-- The integral part, with the nearest end of the range of `Int64` for what lies beyond it, and
zero for what is not a number. -/
def toInt64 : Binary64 → Int64
  | .nan .. => 0
  | .infinite negative => if negative then Int64.minValue else Int64.maxValue
  | .finite negative magnitude => Int64.ofIntClamp (integralPart negative magnitude)

/-- The same without a sign: what is negative goes to zero. -/
def toUInt64 : Binary64 → UInt64
  | .nan .. => 0
  | .infinite negative => if negative then 0 else UInt64.ofNat (UInt64.size - 1)
  | .finite negative magnitude =>
    UInt64.ofNat (min (integralPart negative magnitude).toNat (UInt64.size - 1))

/-- The greatest double without a fraction that is not above a double. -/
def floor : Binary64 → Binary64
  | .finite negative magnitude =>
    ofUnits negative (((signedUnits negative magnitude).fdiv one).natAbs * one) 1
  | number => number

end Binary64

end LetterMachine
