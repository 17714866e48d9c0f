/-!
# Input

A program reads bytes from a source: a token between white space, a single byte, or everything up to
a delimiter.  A source may fail, and it then keeps what it has given out.

The plain source is a list of bytes.  If it is broken, its end cannot be told from a failure: any
reading that has to look beyond the last byte fails, and loses what it has read.
-/

namespace LetterMachine

/-- What stops a reading or a writing. -/
inductive Fault where
  | inputFailed
  | outputFull
  deriving DecidableEq, Repr

def Fault.message : Fault → String
  | .inputFailed => "input failed"
  | .outputFull => "output full"

/-- A state from which bytes can be read.  Every reading gives a result and the state after it. -/
class Source (ι : Type) where
  /-- The next token, or nothing at the end.  White space before the token is passed over, and the
  white space after it stays. -/
  readToken : ι → Except Fault (Option (List UInt8)) × ι
  /-- The next byte, or nothing at the end. -/
  readByte : ι → Except Fault (Option UInt8) × ι
  /-- The bytes before the next delimiter, which is passed over, or all bytes if there is none. -/
  readUntil : UInt8 → ι → Except Fault (List UInt8) × ι

/-- The six bytes of white space. -/
def isSpace (byte : UInt8) : Bool :=
  byte == 0x20 || (0x09 ≤ byte && byte ≤ 0x0D)

/-- A token, or nothing if there are no bytes in it. -/
def asToken (bytes : List UInt8) : Option (List UInt8) :=
  if bytes.isEmpty then none else some bytes

/-- Bytes still to be read, and whether a failure comes after them. -/
structure ByteStream where
  bytes : List UInt8
  broken : Bool := false
  deriving DecidableEq, Repr

namespace ByteStream

def readToken (stream : ByteStream) : Except Fault (Option (List UInt8)) × ByteStream :=
  let text := stream.bytes.dropWhile isSpace
  let token := text.takeWhile (!isSpace ·)
  let rest := text.dropWhile (!isSpace ·)
  let result := if rest.isEmpty && stream.broken then .error .inputFailed else .ok (asToken token)
  (result, { stream with bytes := rest })

def readByte (stream : ByteStream) : Except Fault (Option UInt8) × ByteStream :=
  match stream.bytes with
  | byte :: rest => (.ok (some byte), { stream with bytes := rest })
  | [] => (if stream.broken then .error .inputFailed else .ok none, stream)

def readUntil (delimiter : UInt8) (stream : ByteStream) :
    Except Fault (List UInt8) × ByteStream :=
  let before := stream.bytes.takeWhile (· != delimiter)
  let rest := stream.bytes.dropWhile (· != delimiter)
  let result := if rest.isEmpty && stream.broken then .error .inputFailed else .ok before
  (result, { stream with bytes := rest.drop 1 })

instance : Source ByteStream where
  readToken := readToken
  readByte := readByte
  readUntil := readUntil

end ByteStream

end LetterMachine
