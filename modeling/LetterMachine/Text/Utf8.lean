/-!
# Text from bytes

Bytes are decoded as UTF-8, and text comes out whatever the bytes are.  A sequence that no character
continues is given up at the first byte that does not fit, and becomes one replacement character;
that byte then begins anew.  So does a byte that begins no character become one replacement
character.

The decoder reads one byte at a time and remembers only the character it is in the middle of.
-/

namespace LetterMachine.Utf8

def replacement : Char := '\uFFFD'

/-- A character in the middle of being read. -/
structure Pending where
  /-- The bits of the character so far. -/
  bits : Nat
  /-- How many bytes are still to come. -/
  missing : Nat
  /-- The least byte that may come next. -/
  lowest : UInt8
  /-- The greatest byte that may come next. -/
  highest : UInt8
  deriving DecidableEq, Repr

/-- What a byte gives: finished characters and the character it leaves unfinished. -/
abbrev Progress := List Char × Option Pending

/-- The first byte of a character.  The ranges leave out characters that would fit in fewer bytes,
surrogates, and numbers beyond the last character. -/
def begin (byte : UInt8) : Progress :=
  if byte < 0x80 then ([Char.ofNat byte.toNat], none)
  else if byte < 0xC2 then ([replacement], none)
  else if byte < 0xE0 then ([], some ⟨byte.toNat - 0xC0, 1, 0x80, 0xBF⟩)
  else if byte < 0xF0 then
    ([], some ⟨byte.toNat - 0xE0, 2, if byte = 0xE0 then 0xA0 else 0x80,
      if byte = 0xED then 0x9F else 0xBF⟩)
  else if byte < 0xF5 then
    ([], some ⟨byte.toNat - 0xF0, 3, if byte = 0xF0 then 0x90 else 0x80,
      if byte = 0xF4 then 0x8F else 0xBF⟩)
  else ([replacement], none)

/-- A further byte of a character, which must be in the range for it. -/
def Pending.extend (pending : Pending) (byte : UInt8) : Progress :=
  let bits := pending.bits * 64 + (byte.toNat - 0x80)
  if pending.missing ≤ 1 then ([Char.ofNat bits], none)
  else ([], some ⟨bits, pending.missing - 1, 0x80, 0xBF⟩)

def step (pending? : Option Pending) (byte : UInt8) : Progress :=
  match pending? with
  | none => begin byte
  | some pending =>
    if pending.lowest ≤ byte ∧ byte ≤ pending.highest then pending.extend byte
    else
      let (characters, next) := begin byte
      (replacement :: characters, next)

def decodeFrom (pending? : Option Pending) : List UInt8 → List Char
  | [] => if pending?.isSome then [replacement] else []
  | byte :: rest =>
    let (characters, next) := step pending? byte
    characters ++ decodeFrom next rest

/-- The text that bytes denote. -/
def decode (bytes : List UInt8) : List Char :=
  decodeFrom none bytes

/-- The bytes of a text. -/
def encode (text : List Char) : List UInt8 :=
  text.flatMap String.utf8EncodeChar

end LetterMachine.Utf8
