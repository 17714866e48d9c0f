import LetterMachine.Binary64.Shortest
import LetterMachine.Value

/-!
# Values as text

Integers are written in decimal.  Doubles are written in their shortest digits, in one layout for
traces and in another for JSON.
-/

namespace LetterMachine.Value

/-- Traces write positional notation from `10 ^ (-4)` up to `10 ^ 16` and exponents without a plus
sign, and a half goes up. -/
def traceStyle : ShortestStyle where
  tie := .up
  leastPositional := -4
  positionalLimit := 16
  positiveSign := []
  nan := ['N', 'a', 'N']
  infinite := fun negative => Decimal.sign negative ++ ['i', 'n', 'f']

/-- JSON has positional notation from `10 ^ (-5)` up to `10 ^ 16`, a plus sign before an exponent
that is not negative, and no numbers for what is not finite; a half goes to the even neighbour. -/
def jsonStyle : ShortestStyle where
  tie := .toEven
  leastPositional := -5
  positionalLimit := 16
  positiveSign := ['+']
  nan := ['n', 'u', 'l', 'l']
  infinite := fun _ => ['n', 'u', 'l', 'l']

def styled (style : ShortestStyle) : Value → List Char
  | .integer number => Decimal.integer number.toInt
  | .float number => number.shortestText style

/-- The value as traces show it. -/
def text (value : Value) : String :=
  String.ofList (value.styled traceStyle)

end LetterMachine.Value
