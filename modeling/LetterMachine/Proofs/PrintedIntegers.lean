import LetterMachine.Proofs.EncodedText
import LetterMachine.Proofs.InstructionTable
import LetterMachine.Proofs.Readings
import LetterMachine.Proofs.StraightLine

/-!
# Printed integers read back

An integer is printed as an optional minus sign and digits, none of which is white space, so that
the reader of tokens finds it whole between any white space.  `Machine.reads_printed_integers`
says so of any number of integers: as many instructions to read a number put them on the active
register, and one more finds the end of the input.
-/

namespace LetterMachine

open Utf8

/-! ## Sources and their bytes -/

/-- A source that reads tokens as the plain stream of its bytes does. -/
class StreamSource (ι : Type) [Source ι] where
  rest : ι → ByteStream
  rest_readToken : ∀ source, (Source.readToken source).map id rest = (rest source).readToken

instance : StreamSource ByteStream where
  rest := id
  rest_readToken _ := rfl

instance {ρ : Type} [PieceReader ρ] : StreamSource ρ where
  rest := PieceReader.rest
  rest_readToken := PieceReader.rest_readToken

/-- What is read and what is left are known from the stream. -/
theorem StreamSource.exists_readToken {ι : Type} [Source ι] [StreamSource ι] {source : ι}
    {result : Except Fault (Option (List UInt8))} {left : ByteStream}
    (hread : (rest source).readToken = (result, left)) :
    ∃ source', Source.readToken source = (result, source') ∧ rest source' = left := by
  rw [← rest_readToken] at hread
  obtain ⟨hresult, hleft⟩ := Prod.mk.inj hread
  exact ⟨_, Prod.ext hresult rfl, hleft⟩

/-! ## The text of an integer -/

namespace Decimal

theorem IntegerText.ne_nil {text : List Char} {number : Int} (htext : IntegerText text number) :
    text ≠ [] := by
  cases htext with
  | mk _ _ hnonempty => exact List.append_ne_nil_of_right_ne_nil _ hnonempty

/-- There is no white space in the text of an integer. -/
theorem IntegerText.isSpace_eq_false {text : List Char} {number : Int}
    (htext : IntegerText text number) : ∀ byte ∈ encode text, isSpace byte = false := by
  intro byte hmem
  rw [encode_of_isShort (ofShort_integerText htext), List.mem_map] at hmem
  obtain ⟨c, hmem, rfl⟩ := hmem
  cases htext with
  | mk hsign hdigits =>
      rcases List.mem_append.mp hmem with hmem | hmem
      · cases hsign with
        | missing => cases hmem
        | plus =>
            rw [List.mem_singleton.mp hmem]
            decide
        | minus =>
            rw [List.mem_singleton.mp hmem]
            decide
      · have hdigit := Position.isDigitByte_iff.mp (Position.isDigitByte_byteOf (hdigits c hmem))
        generalize byteOf c = byte at hdigit
        have hother : byte ≠ 0x20 := by
          rintro rfl
          exact absurd hdigit (by decide)
        simp only [isSpace, beq_eq_false_iff_ne.mpr hother, Bool.false_or, Bool.and_eq_false_iff,
          decide_eq_false_iff_not, UInt8.le_iff_toNat_le, UInt8.reduceToNat]
        omega

end Decimal

namespace Workspace

/-- The bytes of an integer. -/
theorem printed_integer (number : Int64) :
    printed .integer (.integer number) = encode (Decimal.integer number.toInt) :=
  rfl

theorem printed_integer_ne_nil (number : Int64) : printed .integer (.integer number) ≠ [] := by
  have htext := Decimal.integerText_integer number.toInt
  rw [printed_integer, encode_of_isShort (Decimal.ofShort_integerText htext)]
  exact mt List.map_eq_nil_iff.mp htext.ne_nil

/-- A printed integer is read as itself. -/
theorem numberRead_printed (number : Int64) :
    numberRead (some (printed .integer (.integer number))) = .integer number := by
  rw [printed_integer, numberRead, decode_encode]
  exact Value.ofToken_of_integerText (Decimal.integerText_integer number.toInt)

end Workspace

/-! ## Integers with white space between them -/

/-- Printed integers, one after the other.  There is white space between neighbours, and there may
be some in front of the first of them and behind the last one.  The last list is what is behind. -/
inductive SpacedIntegers : List Int64 → List UInt8 → List UInt8 → Prop where
  | none {spaces : List UInt8} (hspaces : ∀ byte ∈ spaces, isSpace byte = true) :
      SpacedIntegers [] spaces spaces
  | next {number : Int64} {numbers : List Int64} {spaces rest trailing : List UInt8}
      (hspaces : ∀ byte ∈ spaces, isSpace byte = true)
      (hseparated : ∀ byte ∈ rest.head?, isSpace byte = true)
      (hrest : SpacedIntegers numbers rest trailing) :
      SpacedIntegers (number :: numbers)
        (spaces ++ Workspace.printed .integer (.integer number) ++ rest) trailing

/-- As many instructions to read a number. -/
def Program.readNumbers (count : Nat) : Program :=
  .ofChars (List.replicate count '\x60')

theorem Program.instructions_readNumbers (count : Nat) :
    (readNumbers count).instructions.toList = List.replicate count (.read .number) := by
  have hinstruction : Instruction.ofChar '\x60' = .read .number := by decide
  simp [readNumbers, ofChars, hinstruction]

variable {ι ο : Type} [Source ι] [StreamSource ι] [Sink ο]

namespace Workspace

section Received

omit [Source ι] [StreamSource ι] [Sink ο]

/-- Values have been put on the active register, and the source is in another state. -/
def received (workspace : Workspace ι ο) (values : List Value) (source : ι) : Workspace ι ο :=
  { workspace.withValues workspace.active (values ++ workspace.values) with input := source }

theorem received_nil (workspace : Workspace ι ο) :
    workspace.received [] workspace.input = workspace :=
  workspace.withValues_values

theorem received_received (workspace : Workspace ι ο) (first second : List Value)
    (source source' : ι) :
    (workspace.received first source).received second source' =
      workspace.received (second ++ first) source' := by
  simp [received, withValues, values, contents, Bank.set_set]

end Received

variable {workspace : Workspace ι ο}

theorem isPlain_readNumber : Run.IsPlain (.read .number) :=
  ⟨rfl, nofun⟩

/-- One instruction reads one number. -/
theorem execute_readNumber {token? : Option (List UInt8)} {left : ByteStream}
    (hread : (StreamSource.rest workspace.input).readToken = (.ok token?, left)) :
    ∃ source, StreamSource.rest source = left ∧
      workspace.execute (.read .number) =
        (workspace.received [numberRead token?] source, none) := by
  obtain ⟨source, hsource, hleft⟩ := StreamSource.exists_readToken hread
  refine ⟨source, hleft, ?_⟩
  rw [execute, read, hsource]
  exact congrArg (·, none) (push_eq_withValues _)

/-- The integers are put on the register one after the other. -/
theorem performs_readNumbers {numbers : List Int64} {bytes trailing : List UInt8}
    (htext : SpacedIntegers numbers bytes trailing)
    (hinput : StreamSource.rest workspace.input = ⟨bytes, false⟩) :
    ∃ source, StreamSource.rest source = ⟨trailing, false⟩ ∧
      workspace.Performs (List.replicate numbers.length (.read .number))
        (workspace.received (numbers.reverse.map .integer) source) := by
  induction htext generalizing workspace with
  | none =>
      refine ⟨workspace.input, hinput, ?_⟩
      rw [List.reverse_nil, List.map_nil, received_nil]
      exact .nil workspace
  | @next number numbers spaces rest trailing hspaces hseparated _ ih =>
      have hnonempty := printed_integer_ne_nil number
      have hread := ByteStream.readToken_append hspaces
        (Decimal.integerText_integer number.toInt).isSpace_eq_false hseparated
        (fun hnil => absurd hnil hnonempty) (fun _ => rfl)
      rw [← printed_integer, ← hinput, ByteStream.asToken_of_ne_nil hnonempty] at hread
      obtain ⟨source, hsource, hexecute⟩ := execute_readNumber hread
      rw [numberRead_printed] at hexecute
      obtain ⟨source', hsource', hperforms⟩ :=
        @ih (workspace.received [.integer number] source) hsource
      rw [received_received] at hperforms
      refine ⟨source', hsource', ?_⟩
      rw [List.reverse_cons, List.map_append]
      exact .cons isPlain_readNumber hexecute hperforms

/-- Behind the integers, the end of the input is read. -/
theorem execute_readNumber_of_spaces {spaces : List UInt8}
    (hspaces : ∀ byte ∈ spaces, isSpace byte = true)
    (hinput : StreamSource.rest workspace.input = ⟨spaces, false⟩) :
    ∃ source, StreamSource.rest source = ⟨[], false⟩ ∧
      workspace.execute (.read .number) = (workspace.received [.integer (-1)] source, none) := by
  have hread : ByteStream.readToken ⟨spaces ++ [] ++ [], false⟩ = (.ok none, ⟨[], false⟩) :=
    ByteStream.readToken_append hspaces (List.forall_mem_nil _) nofun (fun _ => rfl) fun _ => rfl
  rw [List.append_nil, List.append_nil, ← hinput] at hread
  exact execute_readNumber hread

end Workspace

theorem SpacedIntegers.isSpace_of_mem_trailing {numbers : List Int64} {bytes trailing : List UInt8}
    (htext : SpacedIntegers numbers bytes trailing) :
    ∀ byte ∈ trailing, isSpace byte = true := by
  induction htext with
  | none hspaces => exact hspaces
  | next _ _ _ ih => exact ih

/-! ## Runs -/

namespace Machine

variable {machine : Machine} {source : ι} {output : ο}

/-- A run of the program halts at its end with these values put on the active register, and all else
as it was but for what is left of the input. -/
def HaltsHolding (machine : Machine) (program : Program) (source : ι) (output : ο)
    (values : List Value) (unread : List UInt8) : Prop :=
  ∃ left, StreamSource.rest left = ⟨unread, false⟩ ∧
    (machine.start source output).Ends program
      { workspace := (machine.start source output).workspace.received values left
        control := { position := program.size, steps := program.size }
        limit := machine.limit
        status := .halted }

theorem haltsHolding_of_performs {count : Nat} (hroom : ∀ limit ∈ machine.limit, count ≤ limit)
    {values : List Value} {unread : List UInt8} {left : ι}
    (hleft : StreamSource.rest left = ⟨unread, false⟩)
    (hperforms : (machine.start source output).workspace.Performs
      (List.replicate count (.read .number))
      ((machine.start source output).workspace.received values left)) :
    machine.HaltsHolding (.readNumbers count) source output values unread := by
  have hsize : (Program.readNumbers count).size = count := by
    simp [Program.readNumbers, Program.ofChars, Program.size]
  rw [← Program.instructions_readNumbers] at hperforms
  rw [← hsize] at hroom
  exact ⟨left, hleft, Run.ends_of_performs hroom hperforms⟩

/-- **Printed integers are read back** by as many instructions, the first of them undermost, and
what is left is the white space behind them.  One more instruction reads minus one. -/
theorem reads_printed_integers {numbers : List Int64}
    (hroom : ∀ limit ∈ machine.limit, numbers.length + 1 ≤ limit)
    {bytes trailing : List UInt8} (htext : SpacedIntegers numbers bytes trailing)
    (hsource : StreamSource.rest source = ⟨bytes, false⟩) (output : ο) :
    machine.HaltsHolding (.readNumbers numbers.length) source output
        (numbers.reverse.map .integer) trailing ∧
      machine.HaltsHolding (.readNumbers (numbers.length + 1)) source output
        (.integer (-1) :: numbers.reverse.map .integer) [] := by
  have hinput : StreamSource.rest (machine.start source output).workspace.input =
      ⟨bytes, false⟩ := hsource
  obtain ⟨left, hleft, hperforms⟩ := Workspace.performs_readNumbers htext hinput
  have hroom' : ∀ limit ∈ machine.limit, numbers.length ≤ limit :=
    fun limit hlimit => Nat.le_of_succ_le (hroom limit hlimit)
  refine ⟨haltsHolding_of_performs hroom' hleft hperforms, ?_⟩
  have hinput' : StreamSource.rest ((machine.start source output).workspace.received
      (numbers.reverse.map .integer) left).input = ⟨trailing, false⟩ := hleft
  obtain ⟨left', hleft', hexecute⟩ :=
    Workspace.execute_readNumber_of_spaces htext.isSpace_of_mem_trailing hinput'
  have hperforms' := hperforms.append (.cons Workspace.isPlain_readNumber hexecute (.nil _))
  rw [Workspace.received_received, ← List.replicate_succ'] at hperforms'
  exact haltsHolding_of_performs hroom hleft' hperforms'

/-- Both ends of the range are read back from a reader that gives one byte at a time. -/
theorem reads_printed_integers_of_extremes :
    let bytes := Utf8.encode " -9223372036854775808\t\n9223372036854775807\r".toList
    let source : ChunkedStream := { chunks := bytes.map ([·]) }
    let machine : Machine := { active := ⟨6⟩, limit := some 3 }
    let output : OutputBuffer := {}
    (∀ limit ∈ machine.limit, [Int64.minValue, Int64.maxValue].length + 1 ≤ limit) ∧
      SpacedIntegers [Int64.minValue, Int64.maxValue] bytes [0x0D] ∧
      StreamSource.rest source = ⟨bytes, false⟩ ∧
      machine.HaltsHolding (.readNumbers 2) source output
        [.integer Int64.maxValue, .integer Int64.minValue] [0x0D] ∧
      machine.HaltsHolding (.readNumbers 3) source output
        [.integer (-1), .integer Int64.maxValue, .integer Int64.minValue] [] := by
  intro bytes source machine output
  have hbytes : [0x20] ++ Workspace.printed .integer (.integer Int64.minValue) ++
      ([0x09, 0x0A] ++ Workspace.printed .integer (.integer Int64.maxValue) ++ [0x0D]) = bytes := by
    decide +kernel
  have htext : SpacedIntegers [Int64.minValue, Int64.maxValue] bytes [0x0D] := by
    rw [← hbytes]
    exact .next (by decide +kernel) (by decide +kernel)
      (.next (by decide +kernel) (by decide +kernel) (.none (by decide +kernel)))
  have hsource : StreamSource.rest source = ⟨bytes, false⟩ := by decide +kernel
  have hroom : ∀ limit ∈ machine.limit, [Int64.minValue, Int64.maxValue].length + 1 ≤ limit := by
    decide
  exact ⟨hroom, htext, hsource, reads_printed_integers hroom htext hsource output⟩

end Machine

end LetterMachine
