import LetterMachine.Binary64.SixDigits
import LetterMachine.Sink
import LetterMachine.Text.Utf8

/-!
# Output

A program prints integers, doubles and single bytes.  A sink of bytes takes all three: integers are
written in decimal, doubles in six significant digits, and a byte as it is.
-/

namespace LetterMachine

/-- A state to which a program can print. -/
class Output (ο : Type) where
  writeInt : Int64 → ο → Except Fault Unit × ο
  writeFloat : Binary64 → ο → Except Fault Unit × ο
  writeByte : UInt8 → ο → Except Fault Unit × ο

instance Output.ofSink {ο : Type} [Sink ο] : Output ο where
  writeInt number := Sink.write (Utf8.encode (Decimal.integer number.toInt))
  writeFloat number := Sink.write (Utf8.encode number.sixDigits)
  writeByte byte := Sink.write [byte]

end LetterMachine
