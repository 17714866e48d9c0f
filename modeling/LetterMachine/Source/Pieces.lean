import LetterMachine.Source

/-!
# Input in pieces

A reader that is filled from outside does not have all of its bytes at hand.  A look at it shows a
piece of what is to come, and some of the bytes shown can then be taken.  How long the pieces are is
up to the reader, so a token, a run of white space or a delimited text may go on over any number of
them, and reading takes what it needs of each piece before it looks for the next.
-/

namespace LetterMachine

namespace ByteStream

/-- The stream after its first bytes. -/
def drop (count : Nat) (stream : ByteStream) : ByteStream :=
  { stream with bytes := stream.bytes.drop count }

/-- What a look at a stream may show: some of its first bytes, none only at its end, and a failure
only where the stream breaks off. -/
inductive Shows (stream : ByteStream) : Except Fault (List UInt8) → Prop where
  | piece {bytes : List UInt8} (hnonempty : bytes ≠ []) (hshown : bytes <+: stream.bytes) :
      Shows stream (.ok bytes)
  | finished (hend : stream.bytes = []) (hbroken : stream.broken = false) : Shows stream (.ok [])
  | failed (hend : stream.bytes = []) (hbroken : stream.broken = true) :
      Shows stream (.error .inputFailed)

end ByteStream

/-- A reader that hands out its bytes in pieces.  A look takes nothing, and what is taken has been
shown by the look before. -/
class PieceReader (ρ : Type) where
  /-- What has not been taken yet. -/
  rest : ρ → ByteStream
  look : ρ → Except Fault (List UInt8) × ρ
  take : Nat → ρ → ρ
  shows_look : ∀ reader, (rest reader).Shows (look reader).1
  rest_look : ∀ reader, rest (look reader).2 = rest reader
  rest_take : ∀ {reader piece count}, (look reader).1 = .ok piece → count ≤ piece.length →
    rest (take count (look reader).2) = (rest reader).drop count

namespace PieceReader

variable {ρ : Type} [PieceReader ρ]

theorem isPrefix_of_look {reader : ρ} {piece : List UInt8} (hlook : (look reader).1 = .ok piece) :
    piece <+: (rest reader).bytes := by
  have hshows := shows_look reader
  rw [hlook] at hshows
  cases hshows with
  | piece _ hshown => exact hshown
  | finished => exact List.nil_prefix

/-- Taking a piece as a whole leaves fewer bytes. -/
theorem length_rest_take_lt {reader : ρ} {piece : List UInt8} (hlook : (look reader).1 = .ok piece)
    (hnonempty : piece ≠ []) :
    (rest (take piece.length (look reader).2)).bytes.length < (rest reader).bytes.length := by
  have hle := (isPrefix_of_look hlook).length_le
  have hpos := List.length_pos_iff.mpr hnonempty
  rw [rest_take hlook (Nat.le_refl _), ByteStream.drop, List.length_drop]
  omega

/-- Takes bytes for as long as they are of the kind to keep.  It looks on behind a piece that is
taken as a whole. -/
def takeRun (keep : UInt8 → Bool) (reader : ρ) : Except Fault (List UInt8) × ρ :=
  match _hlook : look reader with
  | (.error fault, shown) => (.error fault, shown)
  | (.ok piece, shown) =>
    if _hgoes : piece ≠ [] ∧ piece.all keep then
      let (more, left) := takeRun keep (take piece.length shown)
      (more.map (piece ++ ·), left)
    else
      let run := piece.takeWhile keep
      (.ok run, take run.length shown)
termination_by (rest reader).bytes.length
decreasing_by
  have hpiece : (look reader).1 = .ok piece := by rw [_hlook]
  have hshown : (look reader).2 = shown := by rw [_hlook]
  rw [← hshown]
  exact length_rest_take_lt hpiece _hgoes.1

def readToken (reader : ρ) : Except Fault (Option (List UInt8)) × ρ :=
  match takeRun isSpace reader with
  | (.error fault, reader) => (.error fault, reader)
  | (.ok _, reader) =>
    let (token, reader) := takeRun (!isSpace ·) reader
    (token.map asToken, reader)

def readByte (reader : ρ) : Except Fault (Option UInt8) × ρ :=
  match look reader with
  | (.error fault, reader) => (.error fault, reader)
  | (.ok [], reader) => (.ok none, reader)
  | (.ok (byte :: _), reader) => (.ok (some byte), take 1 reader)

def readUntil (delimiter : UInt8) (reader : ρ) : Except Fault (List UInt8) × ρ :=
  match takeRun (· != delimiter) reader with
  | (.error fault, reader) => (.error fault, reader)
  | (.ok before, reader) => (.ok before, (readByte reader).2)

instance : Source ρ where
  readToken := readToken
  readByte := readByte
  readUntil := readUntil

end PieceReader

end LetterMachine
