/-!
# Rounding to the nearest number

A fraction of natural numbers rounded to a natural number, and what becomes of a half.
-/

namespace LetterMachine

-- Powers of natural numbers are those of the core library, whatever else is in scope.
attribute [scoped instance (high)] instPowNat

/-- Which of two equally near neighbours is taken. -/
inductive Tie where
  | toEven
  | up
  deriving DecidableEq, Repr

/-- The neighbour taken for a number half-way above `below`. -/
def Tie.settle (tie : Tie) (below : Nat) : Nat :=
  match tie with
  | .toEven => below + below % 2
  | .up => below + 1

/-- The natural number nearest to `numerator / denominator`. -/
def roundDiv (tie : Tie) (numerator denominator : Nat) : Nat :=
  let below := numerator / denominator
  let twice := 2 * (numerator % denominator)
  if twice < denominator then below
  else if denominator < twice then below + 1
  else tie.settle below

theorem Tie.le_settle (tie : Tie) (below : Nat) : below ≤ tie.settle below := by
  cases tie <;> grind [Tie.settle]

theorem Tie.settle_le (tie : Tie) (below : Nat) : tie.settle below ≤ below + 1 := by
  cases tie <;> grind [Tie.settle]

theorem le_roundDiv (tie : Tie) (numerator denominator : Nat) :
    numerator / denominator ≤ roundDiv tie numerator denominator := by
  grind [roundDiv, Tie.le_settle]

theorem roundDiv_le (tie : Tie) (numerator denominator : Nat) :
    roundDiv tie numerator denominator ≤ numerator / denominator + 1 := by
  grind [roundDiv, Tie.settle_le]

/-- A whole quotient is left alone. -/
theorem roundDiv_mul_left (tie : Tie) {denominator : Nat} (hpos : 0 < denominator)
    (quotient : Nat) : roundDiv tie (denominator * quotient) denominator = quotient := by
  simp [roundDiv, hpos]

end LetterMachine
