import LetterMachine.Bank
import LetterMachine.Json

/-!
# Registers in JSON

Numbers are handed to a serialiser as they are and a register as the list of its values from the
front.  The bank is a map that has an entry for each register that holds a value, from the letter to
the register.
-/

namespace LetterMachine

def Value.datum : Value → Datum
  | .integer number => .integer number
  | .float number => .float number

def Register.datum (register : Register) : Datum :=
  .list (register.toList.map Value.datum)

/-- The registers as they are handed to a serialiser. -/
def Bank.datum (bank : Bank) : Datum :=
  .map (bank.occupied.map fun (letter, register) => (letter.text, Register.datum register))

end LetterMachine
