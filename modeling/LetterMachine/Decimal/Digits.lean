/-!
# Decimal numerals

Natural numbers and integers in decimal notation, and natural numbers read back from their digits.
-/

namespace LetterMachine.Decimal

/-- The digits of a number, without leading zeros; zero has the one digit `0`. -/
def digits (value : Nat) : List Char :=
  Nat.toDigits 10 value

/-- The number that a sequence of digits denotes.  No digits denote zero. -/
def value (digits : List Char) : Nat :=
  Nat.ofDigitChars 10 digits 0

/-- The digits with zeros in front, so that there are at least `width` of them. -/
def padded (width : Nat) (value : Nat) : List Char :=
  List.replicate (width - (digits value).length) '0' ++ digits value

/-- A minus sign where it is needed, and the digits. -/
def integer (value : Int) : List Char :=
  if value < 0 then '-' :: digits value.natAbs else digits value.natAbs

theorem value_digits (number : Nat) : value (digits number) = number :=
  Nat.ofDigitChars_ten_toDigits

theorem isDigit_of_mem_digits {number : Nat} {c : Char} (hmem : c ∈ digits number) :
    c.isDigit = true :=
  Nat.isDigit_of_mem_toDigits (by decide) (by decide) hmem

end LetterMachine.Decimal
