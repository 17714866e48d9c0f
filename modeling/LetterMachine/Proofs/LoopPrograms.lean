import LetterMachine.Proofs.StoredText
import LetterMachine.Proofs.StraightLoops

/-!
# Two programs with a loop

`':1+?@':1+\` reads a byte ahead of its condition and ends at the minus one that stands for the end
of the input, so it copies its input whatever the bytes are.  `:?:@1-:\` counts an integer down to
zero, and a negative one on through the least integer, so it ends whatever the integer is.  In both
the loop has a straight body; the induction is on the rounds that are left.
-/

namespace LetterMachine

variable {ι : Type} [Source ι]

namespace Value

/-- An integer is zero if the number without its sign is. -/
theorem eq_zero_iff (number : Int64) : number = 0 ↔ number.toInt % (2 ^ 64 : Nat) = 0 := by
  have hlow := number.le_toInt
  have hhigh := number.toInt_lt
  have hzero : number = 0 ↔ number.toInt = 0 := Int64.toInt_inj.symm
  rw [hzero]
  omega

theorem toInt_succ_emod (number : Int64) :
    (number + 1).toInt % (2 ^ 64 : Nat) = (number.toInt + 1) % (2 ^ 64 : Nat) := by
  rw [Int64.toInt_add, Int64.toInt_one]
  exact Int.bmod_emod

theorem toInt_pred_emod (number : Int64) :
    (number - 1).toInt % (2 ^ 64 : Nat) = (number.toInt - 1) % (2 ^ 64 : Nat) := by
  rw [Int64.toInt_sub, Int64.toInt_one]
  exact Int.bmod_emod

end Value

/-! ## Copying the input -/

namespace Copying

/-- Reads a byte, and leaves it under a condition that is false at the end of the input only. -/
def lookAhead : List Char := ['\x27', ':', '1', '+']

def body : List Char := '@' :: lookAhead

/-- The program `':1+?@':1+\`, with characters behind it. -/
def program (behind : List Char) : Program :=
  .ofChars (lookAhead ++ '?' :: (body ++ '\\' :: behind))

theorem program_hasLoop {behind : List Char}
    (hnops : ∀ character ∈ behind, Instruction.ofChar character = .nop character) :
    (program behind).HasLoop (lookAhead.map .ofChar) (body.map .ofChar) (behind.map .ofChar) :=
  .ofChars (by decide) (by decide) hnops

/-- The end of the input has a value that no byte has: the one that gives zero with one more. -/
theorem exists_condition (byte? : Option UInt8) :
    ∃ condition, Operator.add.result? (Workspace.byteRead byte?) (.integer 1) = some condition ∧
      condition.isTruthy = byte?.isSome := by
  cases byte? with
  | none => exact ⟨.integer 0, rfl, rfl⟩
  | some byte =>
      have hlt : byte.toNat < 256 := byte.toNat_lt
      have hbyte : (Int64.ofNat byte.toNat).toInt = byte.toNat :=
        Int64.toInt_ofNat_of_lt (hlt.trans (by decide))
      have hnonzero : Int64.ofNat byte.toNat + 1 ≠ 0 := by
        rw [Ne, Value.eq_zero_iff, Value.toInt_succ_emod, hbyte]
        omega
      exact ⟨.integer (Int64.ofNat byte.toNat + 1), rfl, bne_iff_ne.mpr hnonzero⟩

variable [ByteSource ι] (workspace : Workspace ι OutputBuffer) (rest : List Value)
variable {input : ι} (output : OutputBuffer)

open ByteSource

/-- The byte that comes next is taken from the input, under a condition that says whether there was
one. -/
theorem performs_lookAhead {bytes : List UInt8} (hinput : stream input = ⟨bytes, false⟩) :
    ∃ input' condition, stream input' = ⟨bytes.tail, false⟩ ∧
      condition.isTruthy = bytes.head?.isSome ∧
      (workspace.holding rest input output).Performs (lookAhead.map .ofChar)
        (workspace.holding (condition :: Workspace.byteRead bytes.head? :: rest) input'
          output) := by
  have hread : (stream input).readByte = (.ok bytes.head?, ⟨bytes.tail, false⟩) := by
    rw [hinput]
    cases bytes <;> rfl
  obtain ⟨input', hleft, hexecute⟩ := workspace.execute_readByte rest input output hread
  obtain ⟨condition, hresult, htruthy⟩ := exists_condition bytes.head?
  refine ⟨input', condition, hleft, htruthy, ?_⟩
  have hplain : Run.IsPlain (.read .byte) := ⟨rfl, Instruction.noConfusion⟩
  apply Workspace.Performs.cons hplain hexecute
  apply Workspace.performs_shuffle
  apply Workspace.performs_digit
  exact Workspace.performs_operate hresult (.nil _)

/-- One round for each byte that is still to be copied, the one read ahead included. -/
theorem rounds_copy {bytes : List UInt8} {condition : Value}
    (hinput : stream input = ⟨bytes.tail, false⟩)
    (hcondition : condition.isTruthy = bytes.head?.isSome) (hroom : output.HasRoom bytes.length) :
    ∃ left, stream left = ⟨[], false⟩ ∧
      (workspace.holding (condition :: Workspace.byteRead bytes.head? :: rest) input output).Rounds
        (body.map .ofChar) bytes.length
        (workspace.holding (.integer (-1) :: rest) left (output.append bytes)) := by
  induction bytes generalizing input output condition with
  | nil =>
      refine ⟨input, hinput, .done ?_⟩
      rw [OutputBuffer.append_nil, Workspace.takeCondition_holding, hcondition]
      rfl
  | cons byte bytes ih =>
      obtain ⟨input', next, hinput', hnext, hperforms⟩ :=
        performs_lookAhead workspace rest (output.append [byte]) hinput
      obtain ⟨left, hleft, hrounds⟩ := ih _ hinput' hnext (hroom.append_one byte)
      have htake := workspace.takeCondition_holding (.ofByte byte :: rest) input output condition
      rw [hcondition] at htake
      rw [OutputBuffer.append_append] at hrounds
      have hbody := Workspace.performs_printByte (Value.toByte_ofByte byte) hroom hperforms
      exact ⟨left, hleft, .round htake hbody hrounds⟩

/-- **The input is copied, whatever its bytes are.**  A machine without a limit that starts the
program `':1+?@':1+\` on some input ends in success, after a round for each byte.  All of the input
has been read, and the same bytes have been written.  In front of what was in its register stands
the minus one that is no byte, no loop is open, and instructions are not passed over.  Characters
that mean nothing may come behind the program. -/
theorem copies_input {machine : Machine} (hfree : machine.limit = none) {bytes : List UInt8}
    (hinput : stream input = ⟨bytes, false⟩) {output : OutputBuffer}
    (hroom : output.HasRoom bytes.length) {behind : List Char}
    (hnops : ∀ character ∈ behind, Instruction.ofChar character = .nop character) :
    ∃ last,
      (machine.start input output).EndsAfterRounds (program behind) ⟨10, 4⟩ bytes.length last ∧
      last.workspace.output.written = output.written ++ bytes ∧
      stream last.workspace.input = ⟨[], false⟩ ∧
      (last.workspace.bank.get machine.active).toList =
        .integer (-1) :: (machine.bank.get machine.active).toList ∧
      ∀ letter, letter ≠ machine.active →
        last.workspace.bank.get letter = machine.bank.get letter := by
  let workspace := (machine.start input output).workspace
  have hstart : stream workspace.input = ⟨bytes, false⟩ := hinput
  obtain ⟨input', condition, hinput', hcondition, hfront⟩ :=
    performs_lookAhead workspace workspace.values workspace.output hstart
  obtain ⟨left, hleft, hrounds⟩ :=
    rounds_copy workspace workspace.values workspace.output hinput' hcondition hroom
  rw [Workspace.holding_self] at hfront
  obtain ⟨last, hends, hlast⟩ := Run.exists_endsAfterRounds hfree (program_hasLoop hnops) hfront
    hrounds (Workspace.performs_nops hnops _)
  refine ⟨last, hends, ?_⟩
  rw [hlast]
  exact ⟨OutputBuffer.written_append bytes output, hleft, Workspace.values_holding ..,
    fun letter hne => Workspace.get_holding_of_ne workspace _ _ _ hne⟩

/-- Bytes that are negative as signed ones, and one more than which is no byte, are copied as well,
and nothing is missed at the end of a chunk. -/
theorem copies_input_of_high_bytes :
    let machine : Machine := { bank := Bank.empty.push ⟨0⟩ (.integer 7) }
    let source : ChunkedStream := ⟨[[0xFF, 0x00], [0x80, 0xFF]], false⟩
    let program := Program.ofSource ("':1+?@':1+\\".toList)
    program = Copying.program ['\n'] ∧
      ∃ last : Run ChunkedStream OutputBuffer,
        (machine.start source {}).EndsAfterRounds program ⟨10, 4⟩ 4 last ∧
        last.workspace.output.written = [0xFF, 0x00, 0x80, 0xFF] ∧
        (last.workspace.bank.get ⟨0⟩).toList = [.integer (-1), .integer 7] := by
  intro machine source program
  have hprogram : program = Copying.program ['\n'] := by decide
  have hfree : machine.limit = none := rfl
  have hinput : stream source = ⟨[0xFF, 0x00, 0x80, 0xFF], false⟩ := rfl
  have hroom : ({} : OutputBuffer).HasRoom 4 := nofun
  have hnops : ∀ character ∈ ['\n'], Instruction.ofChar character = .nop character :=
    List.forall_mem_singleton.mpr rfl
  obtain ⟨last, hends, hwritten, -, hvalues, -⟩ := copies_input hfree hinput hroom hnops
  exact ⟨hprogram, last, hprogram ▸ hends, hwritten, hvalues⟩

end Copying

/-! ## Counting down -/

namespace Countdown

def front : List Char := [':']

/-- Prints the counter as a byte, takes one from it, and leaves it under itself as the condition. -/
def body : List Char := [':', '@', '1', '-', ':']

/-- The program `:?:@1-:\`, with characters behind it. -/
def program (behind : List Char) : Program :=
  .ofChars (front ++ '?' :: (body ++ '\\' :: behind))

theorem program_hasLoop {behind : List Char}
    (hnops : ∀ character ∈ behind, Instruction.ofChar character = .nop character) :
    (program behind).HasLoop (front.map .ofChar) (body.map .ofChar) (behind.map .ofChar) :=
  .ofChars (by decide) (by decide) hnops

/-- The integer reduced to a number below `2 ^ 64`. -/
def reduced (number : Int64) : Nat :=
  (number.toInt % (2 ^ 64 : Nat)).toNat

/-- The remainder of an integer by 256. -/
def lowByte (number : Int) : UInt8 :=
  .ofNat (number % 256).toNat

/-- The bytes of an integer and of those below it. -/
def bytesBelow (number : Int) (count : Nat) : List UInt8 :=
  (List.range count).map fun below : Nat => lowByte (number - below)

theorem length_bytesBelow (number : Int) (count : Nat) :
    (bytesBelow number count).length = count := by
  rw [bytesBelow, List.length_map, List.length_range]

theorem bytesBelow_succ (number : Int) (count : Nat) :
    bytesBelow number (count + 1) = lowByte number :: bytesBelow (number - 1) count := by
  have hbelow (below : Nat) : number - (below + 1 : Nat) = number - 1 - below := by omega
  rw [bytesBelow, List.range_succ_eq_map, List.map_cons, List.map_map, Nat.cast_zero, Int.sub_zero]
  simp only [Function.comp_def, Nat.succ_eq_add_one, hbelow]
  rfl

/-- Multiples of 256 make no difference. -/
theorem bytesBelow_congr {first second : Int} (hmod : first % 256 = second % 256) (count : Nat) :
    bytesBelow first count = bytesBelow second count := by
  have hbelow (below : Nat) : (first - below) % 256 = (second - below) % 256 := by omega
  simp only [bytesBelow, lowByte, hbelow]

theorem toByte_eq_lowByte (number : Int64) :
    (Value.integer number).toByte = lowByte number.toInt := by
  apply Value.toByte_eq
  rw [lowByte, UInt8.toNat_ofNat']
  change _ = number.toInt % 256
  omega

variable (workspace : Workspace ι OutputBuffer) (rest : List Value) (input : ι)

theorem performs_front {number : Int64} (hvalues : workspace.values = .integer number :: rest) :
    workspace.Performs (front.map .ofChar)
      (workspace.holding (.integer number :: .integer number :: rest) workspace.input
        workspace.output) := by
  have hself := workspace.holding_self
  rw [hvalues] at hself
  nth_rewrite 1 [← hself]
  exact Workspace.performs_shuffle (.nil _)

theorem performs_body {number : Int64} {output : OutputBuffer} {count : Nat}
    (hroom : output.HasRoom (count + 1)) :
    (workspace.holding (.integer number :: rest) input output).Performs (body.map .ofChar)
      (workspace.holding (.integer (number - 1) :: .integer (number - 1) :: rest) input
        (output.append [lowByte number.toInt])) := by
  have hresult : Operator.sub.result? (.integer number) (.integer 1) =
      some (.integer (number - 1)) := rfl
  apply Workspace.performs_shuffle
  apply Workspace.performs_printByte (toByte_eq_lowByte number) hroom
  apply Workspace.performs_digit
  apply Workspace.performs_operate hresult
  exact Workspace.performs_shuffle (.nil _)

/-- As many rounds as the counter is above zero, without its sign. -/
theorem rounds_countdown {number : Int64} {output : OutputBuffer} {count : Nat}
    (hcount : number.toInt % (2 ^ 64 : Nat) = count) (hroom : output.HasRoom count) :
    (workspace.holding (.integer number :: .integer number :: rest) input output).Rounds
      (body.map .ofChar) count
      (workspace.holding (.integer 0 :: rest) input
        (output.append (bytesBelow number.toInt count))) := by
  induction count generalizing number output with
  | zero =>
      obtain rfl : number = 0 := (Value.eq_zero_iff number).mpr hcount
      rw [bytesBelow, List.range_zero, List.map_nil, OutputBuffer.append_nil]
      exact .done (workspace.takeCondition_holding (.integer 0 :: rest) input output (.integer 0))
  | succ count ih =>
      have htake := workspace.takeCondition_holding (.integer number :: rest) input output
        (.integer number)
      have hnonzero : number ≠ 0 := by
        rw [Ne, Value.eq_zero_iff]
        omega
      have htruthy : (Value.integer number).isTruthy = true := bne_iff_ne.mpr hnonzero
      rw [htruthy] at htake
      have hpred : (number - 1).toInt % (2 ^ 64 : Nat) = count := by
        rw [Value.toInt_pred_emod]
        omega
      have hbyte : (number - 1).toInt % 256 = (number.toInt - 1) % 256 := by
        have hmod := Value.toInt_pred_emod number
        omega
      have hrest := ih hpred (hroom.append_one (lowByte number.toInt))
      rw [OutputBuffer.append_append, bytesBelow_congr hbyte, List.singleton_append,
        ← bytesBelow_succ] at hrest
      exact .round htake (performs_body workspace rest input hroom) hrest

/-- **Every integer is counted down to zero.**  A machine without a limit that starts the program
`:?:@1-:\` on an integer goes round as often as the integer says when it is reduced to a number
below `2 ^ 64`, and ends in success.  It has then written the low bytes of the integer and of those
below it, the counter is zero, and no loop is open.  Characters that mean nothing may come behind
the program. -/
theorem counts_down {machine : Machine} (hfree : machine.limit = none) {number : Int64}
    {rest : List Value}
    (hvalues : (machine.bank.get machine.active).toList = .integer number :: rest)
    {output : OutputBuffer} (hroom : output.HasRoom (reduced number)) {behind : List Char}
    (hnops : ∀ character ∈ behind, Instruction.ofChar character = .nop character) :
    ∃ last,
      (machine.start input output).EndsAfterRounds (program behind) ⟨7, 1⟩ (reduced number) last ∧
      last.workspace.output.written =
        output.written ++ bytesBelow number.toInt (reduced number) ∧
      last.workspace.input = input ∧
      (last.workspace.bank.get machine.active).toList = .integer 0 :: rest ∧
      ∀ letter, letter ≠ machine.active →
        last.workspace.bank.get letter = machine.bank.get letter := by
  let workspace := (machine.start input output).workspace
  have hnonneg : 0 ≤ number.toInt % (2 ^ 64 : Nat) := Int.emod_nonneg _ (by decide)
  have hcount : number.toInt % (2 ^ 64 : Nat) = reduced number :=
    (Int.toNat_of_nonneg hnonneg).symm
  have hfront := performs_front workspace rest hvalues
  have hrounds := rounds_countdown workspace rest input hcount hroom
  obtain ⟨last, hends, hlast⟩ := Run.exists_endsAfterRounds hfree (program_hasLoop hnops) hfront
    hrounds (Workspace.performs_nops hnops _)
  refine ⟨last, hends, ?_⟩
  rw [hlast]
  exact ⟨OutputBuffer.written_append _ output, rfl, Workspace.values_holding ..,
    fun letter hne => Workspace.get_holding_of_ne workspace _ _ _ hne⟩

/-- The counter of minus one goes through all integers. -/
theorem counts_down_of_minus_one :
    let machine : Machine :=
      { bank := (Bank.empty.push ⟨0⟩ (.integer 5)).push ⟨0⟩ (.integer (-1)) }
    let source : ByteStream := ⟨[], false⟩
    let program := Program.ofSource ":?:@1-:\\".toList
    program = Countdown.program ['\n'] ∧
      ∃ last : Run ByteStream OutputBuffer,
        (machine.start source {}).EndsAfterRounds program ⟨7, 1⟩ (2 ^ 64 - 1) last ∧
        last.workspace.output.written.length = 2 ^ 64 - 1 ∧
        (last.workspace.bank.get ⟨0⟩).toList = [.integer 0, .integer 5] := by
  intro machine source program
  have hprogram : program = Countdown.program ['\n'] := by decide
  have hfree : machine.limit = none := rfl
  have hvalues : (machine.bank.get machine.active).toList = [.integer (-1), .integer 5] := by
    decide
  have hrounds : reduced (-1) = 2 ^ 64 - 1 := by decide
  have hroom : ({} : OutputBuffer).HasRoom (reduced (-1)) := nofun
  have hnops : ∀ character ∈ ['\n'], Instruction.ofChar character = .nop character :=
    List.forall_mem_singleton.mpr rfl
  obtain ⟨last, hends, hwritten, -, hlast, -⟩ := counts_down source hfree hvalues hroom hnops
  rw [hrounds] at hends hwritten
  refine ⟨hprogram, last, hprogram ▸ hends, ?_, hlast⟩
  rw [hwritten, List.length_append, length_bytesBelow]
  rfl

end Countdown

end LetterMachine
