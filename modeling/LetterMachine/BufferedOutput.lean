import LetterMachine.Sink

/-!
# Buffered output

What a program prints goes to a device, such as the standard output of a process, through a buffer.
Bytes are held back until there are too many of them, and are then given to the device together.
What a device refuses stays in the buffer.
-/

namespace LetterMachine

/-- A state of what takes the bytes in the end. -/
class Device (ο : Type) where
  /-- Gives bytes to the device.  A failure comes with the bytes that have not been taken. -/
  put : List UInt8 → ο → Except (Fault × List UInt8) Unit × ο
  /-- Makes the device give out what it has taken. -/
  flush : ο → Except Fault Unit × ο
  /-- All bytes that have come out when the process has ended. -/
  output : ο → List UInt8

/-- A buffer as a device takes the bytes for which it has room, and gives out all that it takes. -/
instance : Device OutputBuffer where
  put bytes buffer :=
    match buffer.room? with
    | none => (.ok (), buffer.append bytes)
    | some room =>
      if bytes.length ≤ room then (.ok (), buffer.append bytes)
      else (.error (.outputFull, bytes.drop room), buffer.append (bytes.take room))
  flush buffer := (.ok (), buffer)
  output := OutputBuffer.written

/-- A device behind a buffer. -/
structure BufferedOutput (ο : Type) where
  device : ο
  /-- The bytes held back, the last one first. -/
  reversed : List UInt8
  count : Nat
  count_eq : count = reversed.length

namespace BufferedOutput

variable {ο : Type}

/-- A device from which nothing is held back. -/
def ofDevice (device : ο) : BufferedOutput ο :=
  ⟨device, [], 0, rfl⟩

/-- The most bytes that are held back. -/
def capacity : Nat := 8192

/-- The bytes held back, in the order in which they were written. -/
def held (buffer : BufferedOutput ο) : List UInt8 :=
  buffer.reversed.reverse

def hold (bytes : List UInt8) (buffer : BufferedOutput ο) : BufferedOutput ο where
  device := buffer.device
  reversed := bytes.reverseAux buffer.reversed
  count := buffer.count + bytes.length
  count_eq := by
    rw [List.reverseAux_eq, List.length_append, List.length_reverse, buffer.count_eq,
      Nat.add_comm]

variable [Device ο]

/-- Gives the bytes held back to the device. -/
def drain (buffer : BufferedOutput ο) : Except Fault Unit × BufferedOutput ο :=
  match Device.put buffer.held buffer.device with
  | (.ok (), device) => (.ok (), .ofDevice device)
  | (.error (fault, left), device) =>
    (.error fault, {
      device := device
      reversed := left.reverse
      count := left.length
      count_eq := (List.length_reverse ..).symm })

/-- Gives bytes to the device although none are held back. -/
def pass (bytes : List UInt8) (buffer : BufferedOutput ο) :
    Except Fault Unit × BufferedOutput ο :=
  let (result, device) := Device.put bytes buffer.device
  (result.mapError Prod.fst, { buffer with device := device })

/-- Holds bytes back if there is room for them.  More than the buffer can hold is not held back at
all. -/
def write (bytes : List UInt8) (buffer : BufferedOutput ο) :
    Except Fault Unit × BufferedOutput ο :=
  let spare := capacity - buffer.count
  if bytes.length < spare then (.ok (), buffer.hold bytes)
  else
    match if spare < bytes.length then buffer.drain else (.ok (), buffer) with
    | (.error fault, buffer) => (.error fault, buffer)
    | (.ok (), buffer) =>
      if bytes.length < capacity then (.ok (), buffer.hold bytes) else buffer.pass bytes

instance : Sink (BufferedOutput ο) where
  write := write

/-- Gives the bytes held back to the device, and makes it give them out. -/
def flush (buffer : BufferedOutput ο) : Except Fault Unit × BufferedOutput ο :=
  match buffer.drain with
  | (.error fault, buffer) => (.error fault, buffer)
  | (.ok (), buffer) =>
    let (result, device) := Device.flush buffer.device
    (result, { buffer with device := device })

/-- The bytes that have come out when the process has ended.  What is still held back is lost. -/
def output (buffer : BufferedOutput ο) : List UInt8 :=
  Device.output buffer.device

end BufferedOutput

end LetterMachine
