import LetterMachine.Binary64.OfDecimal
import LetterMachine.Value

/-!
# Numbers in the input

A token of the input is read as a number by its longest front part that is one.  A token with a
point anywhere in it is read as a double, and the double becomes an integer if it is one; any other
token is read as an integer.  A token that does not start with a number, or that starts with an
integer out of range, is read as minus one.
-/

namespace LetterMachine

namespace Decimal

/-- The digits at the front of a text and what follows them. -/
def spanDigits (text : List Char) : List Char × List Char :=
  (text.takeWhile Char.isDigit, text.dropWhile Char.isDigit)

/-- Whether there is a minus sign at the front of a text, and what follows the sign, if any. -/
def splitSign : List Char → Bool × List Char
  | '-' :: rest => (true, rest)
  | '+' :: rest => (false, rest)
  | text => (false, text)

/-- An unsigned integer with its sign. -/
def signed (negative : Bool) (magnitude : Nat) : Int :=
  if negative then -(magnitude : Int) else magnitude

/-- The exponent at the front of a text.  A letter `e` without digits after it is no exponent. -/
def leadingPower : List Char → Int
  | 'e' :: rest | 'E' :: rest =>
    let (negative, rest) := splitSign rest
    signed negative (value (spanDigits rest).1)
  | _ => 0

/-- The digits after a point at the front of a text, and what follows them.  The point is part of a
number only if there are digits on one of its two sides. -/
def spanFraction (whole : List Char) : List Char → List Char × List Char
  | '.' :: rest =>
    let (fraction, after) := spanDigits rest
    if whole.isEmpty && fraction.isEmpty then ([], '.' :: rest) else (fraction, after)
  | text => ([], text)

end Decimal

namespace Value

/-- What a token is read as when it is not a number. -/
def unreadable : Value := .integer (-1)

/-- The integer at the front of a token. -/
def leadingInteger? (token : List Char) : Option Value :=
  let (negative, rest) := Decimal.splitSign token
  let (whole, _) := Decimal.spanDigits rest
  if whole.isEmpty then none else ofInt? (Decimal.signed negative (Decimal.value whole))

/-- The number in decimal notation at the front of a token. -/
def leadingDecimal? (token : List Char) : Option Value :=
  let (negative, rest) := Decimal.splitSign token
  let (whole, rest) := Decimal.spanDigits rest
  let (fraction, rest) := Decimal.spanFraction whole rest
  if whole.isEmpty && fraction.isEmpty then none
  else
    let exponent := Decimal.leadingPower rest - fraction.length
    some (ofBinary64 (Binary64.ofDecimal negative (Decimal.value (whole ++ fraction)) exponent))

/-- The number that a token of the input is read as. -/
def ofToken (token : List Char) : Value :=
  (if token.contains '.' then leadingDecimal? token else leadingInteger? token).getD unreadable

end Value

end LetterMachine
