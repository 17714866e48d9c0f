import LetterMachine.Source

/-!
# Sinks of bytes

A buffer keeps the bytes that are written to it, for as long as there is room: a writing that does
not fit stores the bytes that do, and fails.
-/

namespace LetterMachine

/-- A state to which bytes can be written. -/
class Sink (ο : Type) where
  write : List UInt8 → ο → Except Fault Unit × ο

/-- The bytes written so far, and how many more there is room for, unless room is unlimited. -/
structure OutputBuffer where
  room? : Option Nat := none
  /-- The bytes, the last one first. -/
  reversed : List UInt8 := []
  deriving DecidableEq, Repr

namespace OutputBuffer

/-- The bytes in the order in which they were written. -/
def written (buffer : OutputBuffer) : List UInt8 :=
  buffer.reversed.reverse

/-- Adds bytes for which there is room. -/
def append (bytes : List UInt8) (buffer : OutputBuffer) : OutputBuffer where
  room? := buffer.room?.map (· - bytes.length)
  reversed := bytes.reverseAux buffer.reversed

def write (bytes : List UInt8) (buffer : OutputBuffer) : Except Fault Unit × OutputBuffer :=
  match buffer.room? with
  | none => (.ok (), buffer.append bytes)
  | some room =>
    if bytes.length ≤ room then (.ok (), buffer.append bytes)
    else (.error .outputFull, buffer.append (bytes.take room))

instance : Sink OutputBuffer where
  write := write

@[simp]
theorem written_append (bytes : List UInt8) (buffer : OutputBuffer) :
    (buffer.append bytes).written = buffer.written ++ bytes := by
  simp [append, written, List.reverseAux_eq]

end OutputBuffer

end LetterMachine
