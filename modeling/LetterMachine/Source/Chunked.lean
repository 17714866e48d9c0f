import LetterMachine.Source.Pieces

/-!
# Input in chunks

A source that is filled chunk by chunk.  A look at it shows what is left of the first chunk that has
bytes.
-/

namespace LetterMachine

/-- Chunks still to be read, and whether a failure comes after them. -/
structure ChunkedStream where
  chunks : List (List UInt8)
  broken : Bool := false
  deriving DecidableEq, Repr

namespace ChunkedStream

/-- Cuts bytes into chunks of `size`, the last of which may be shorter. -/
def cut (size : Nat) (bytes : List UInt8) : List (List UInt8) :=
  match bytes with
  | [] => []
  | byte :: rest =>
    (byte :: rest.take (size - 1)) :: cut size (rest.drop (size - 1))
termination_by bytes.length

/-- The bytes that are left, put together. -/
def bytes (stream : ChunkedStream) : List UInt8 :=
  stream.chunks.flatten

/-- Shows the first chunk that has bytes. -/
def look (stream : ChunkedStream) : Except Fault (List UInt8) × ChunkedStream :=
  match stream.chunks.dropWhile List.isEmpty with
  | [] => (if stream.broken then .error .inputFailed else .ok [], { stream with chunks := [] })
  | chunk :: chunks => (.ok chunk, { stream with chunks := chunk :: chunks })

/-- Takes bytes of the first chunk. -/
def take (count : Nat) (stream : ChunkedStream) : ChunkedStream :=
  match stream.chunks with
  | [] => stream
  | chunk :: chunks => { stream with chunks := chunk.drop count :: chunks }

/-- A look finds the bytes where they are, and shows some of them if there are any. -/
theorem look_spec (stream : ChunkedStream) :
    stream.look.2.bytes = stream.bytes ∧ stream.look.2.broken = stream.broken ∧
      (ByteStream.mk stream.bytes stream.broken).Shows stream.look.1 := by
  obtain ⟨chunks, broken⟩ := stream
  induction chunks with
  | nil =>
      refine ⟨rfl, rfl, ?_⟩
      cases broken with
      | false => exact .finished rfl rfl
      | true => exact .failed rfl rfl
  | cons chunk chunks ih =>
      cases chunk with
      | nil => exact ih
      | cons byte rest => exact ⟨rfl, rfl, .piece (List.cons_ne_nil _ _) (List.prefix_append _ _)⟩

/-- Bytes that a look has shown are taken from the front. -/
theorem take_look {stream : ChunkedStream} {piece : List UInt8} {count : Nat}
    (hlook : stream.look.1 = .ok piece) (hcount : count ≤ piece.length) :
    (stream.look.2.take count).bytes = stream.bytes.drop count ∧
      (stream.look.2.take count).broken = stream.broken := by
  obtain ⟨chunks, broken⟩ := stream
  induction chunks with
  | nil => exact ⟨List.drop_nil.symm, rfl⟩
  | cons chunk chunks ih =>
      cases chunk with
      | nil => exact ih hlook
      | cons byte rest =>
          have hpiece : byte :: rest = piece := Except.ok.inj hlook
          rw [← hpiece] at hcount
          exact ⟨(List.drop_append_of_le_length hcount).symm, rfl⟩

instance : PieceReader ChunkedStream where
  rest stream := ⟨stream.bytes, stream.broken⟩
  look := look
  take := take
  shows_look stream := stream.look_spec.2.2
  rest_look stream := by rw [stream.look_spec.1, stream.look_spec.2.1]
  rest_take := by
    intro stream piece count hlook hcount
    rw [(take_look hlook hcount).1, (take_look hlook hcount).2]
    rfl

def readToken (stream : ChunkedStream) : Except Fault (Option (List UInt8)) × ChunkedStream :=
  PieceReader.readToken stream

def readByte (stream : ChunkedStream) : Except Fault (Option UInt8) × ChunkedStream :=
  PieceReader.readByte stream

def readUntil (delimiter : UInt8) (stream : ChunkedStream) :
    Except Fault (List UInt8) × ChunkedStream :=
  PieceReader.readUntil delimiter stream

end ChunkedStream

end LetterMachine
