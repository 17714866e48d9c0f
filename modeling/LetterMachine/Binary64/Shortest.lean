import LetterMachine.Binary64.OfDecimal

/-!
# Shortest digits of a double

The fewest significant digits that read back as the same double, and among the numbers with that
many digits the one nearest to it.  Seventeen digits are always enough.
-/

namespace LetterMachine

namespace Binary64.Magnitude

/-- Whether the double nearest to `coefficient * 10 ^ exponent` is this one. -/
def readsAs (magnitude : Magnitude) (coefficient : Nat) (exponent : Int) : Bool :=
  ofDecimal false coefficient exponent = .finite false magnitude

/-- The number of `places` significant digits nearest to a magnitude among those that read back as
it: one of the two neighbours of the magnitude, if any. -/
def shortened? (tie : Tie) (magnitude : Magnitude) (places : Nat) : Option Decimal.Scientific :=
  let leading := Decimal.leadingExponent magnitude.units one
  let exponent := leading + 1 - places
  let (numerator, denominator) := Decimal.scaled magnitude.units one (-exponent)
  let below := numerator / denominator
  let nearer := roundDiv tie numerator denominator
  let farther := if nearer = below then below + 1 else below
  if magnitude.readsAs nearer exponent then
    some (.ofCoefficient places nearer leading)
  else if magnitude.readsAs farther exponent then
    some (.ofCoefficient places farther leading)
  else
    none

/-- The shortest digits of a positive magnitude. -/
def shortest (tie : Tie) (magnitude : Magnitude) : Decimal.Scientific :=
  (((List.range 17).map (· + 1)).findSome? (magnitude.shortened? tie)).getD
    (.rounded 17 magnitude.units one)

end Binary64.Magnitude

/-- How the shortest digits of a double are laid out. -/
structure ShortestStyle where
  /-- Which of two equally near numbers is written. -/
  tie : Tie
  /-- The exponent of the smallest numbers in positional notation. -/
  leastPositional : Int
  /-- The exponent from which on numbers are no longer in positional notation. -/
  positionalLimit : Int
  /-- What stands before an exponent that is not negative. -/
  positiveSign : List Char
  nan : List Char
  infinite : Bool → List Char

namespace Decimal.Scientific

/-- Positional notation always has a fraction; an exponent is written with its own digits only. -/
def styled (style : ShortestStyle) (number : Scientific) : List Char :=
  if style.leastPositional ≤ number.exponent ∧ number.exponent < style.positionalLimit then
    number.whole ++ '.' :: if number.fraction.isEmpty then ['0'] else number.fraction
  else
    pointed number.head number.tail ++
      'e' :: (if number.exponent < 0 then ['-'] else style.positiveSign) ++
        Decimal.digits number.exponent.natAbs

end Decimal.Scientific

namespace Binary64

def shortestText (style : ShortestStyle) : Binary64 → List Char
  | .nan .. => style.nan
  | .infinite negative => style.infinite negative
  | .finite negative magnitude =>
    Decimal.sign negative ++
      if magnitude.units = 0 then ['0', '.', '0']
      else (magnitude.shortest style.tie).styled style

end Binary64

end LetterMachine
