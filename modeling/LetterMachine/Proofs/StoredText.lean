import LetterMachine.Proofs.KnownOperands

/-!
# Text read and printed

A text that is read stands in the register with its first byte in front and a zero under its last
one, so that one instruction to print for each byte writes the text again.  Bytes are stored without
a sign, and printing takes the low byte of the number, which is the byte that was read.
`Run.text_survives` says so of every text, whatever the delimiter that it was read with.
-/

namespace LetterMachine

/-! ## Bytes as values -/

namespace Value

theorem toByte_eq {value : Value} {byte : UInt8}
    (hbyte : (byte.toNat : Int) = value.toInt64.toInt % 256) : value.toByte = byte := by
  rw [← toNat_toByte] at hbyte
  exact UInt8.toNat_inj.mp (Int.ofNat_inj.mp hbyte.symm)

/-- A byte is printed as it was read. -/
@[simp]
theorem toByte_ofByte (byte : UInt8) : (ofByte byte).toByte = byte := by
  simp [ofByte, toByte, toInt64]

end Value

/-! ## Texts -/

/-- The text that is read of a list of bytes with a value as its delimiter, together with the bytes
that this takes and leaves, and the number of places that have to be looked at.  If the value is
zero as an integer, the text is the next token, or empty if there is none.  Otherwise it ends before
the next byte that is the remainder of the value by 256. -/
inductive ReadsText (delimiter : Value) : (text taken left : List UInt8) → (looked : Nat) → Prop
  where
  | token {token? : Option (List UInt8)} {taken left : List UInt8} {looked : Nat}
      (hzero : delimiter.toInt64 = 0) (hreads : Reads .token (.token token?) taken left looked) :
      ReadsText delimiter (token?.getD []) taken left looked
  | text {byte : UInt8} {text taken left : List UInt8} {looked : Nat}
      (hnonzero : delimiter.toInt64 ≠ 0)
      (hbyte : (byte.toNat : Int) = delimiter.toInt64.toInt % 256)
      (hreads : Reads (.text byte) (.text text) taken left looked) :
      ReadsText delimiter text taken left looked

theorem exists_readsText (delimiter : Value) (bytes : List UInt8) :
    ∃ text taken left looked,
      ReadsText delimiter text taken left looked ∧ bytes = taken ++ left := by
  by_cases hzero : delimiter.toInt64 = 0
  · obtain ⟨answer, taken, left, looked, hreads, hbytes⟩ := exists_reads .token bytes
    have htoken : ∃ token?, answer = .token token? := by
      cases hreads <;> exact ⟨_, rfl⟩
    obtain ⟨token?, rfl⟩ := htoken
    exact ⟨_, taken, left, looked, .token hzero hreads, hbytes⟩
  · obtain ⟨answer, taken, left, looked, hreads, hbytes⟩ :=
      exists_reads (.text delimiter.toByte) bytes
    have htext : ∃ text, answer = .text text := by
      cases hreads <;> exact ⟨_, rfl⟩
    obtain ⟨text, rfl⟩ := htext
    exact ⟨text, taken, left, looked, .text hzero delimiter.toNat_toByte hreads, hbytes⟩

variable {ι : Type} [Source ι] [ByteSource ι]

open ByteSource

namespace Workspace

variable {ο : Type} [Sink ο] (workspace : Workspace ι ο) (rest : List Value)
variable {input : ι} (output : ο)

/-- A text comes in the place of its delimiter. -/
theorem execute_readText {delimiter : Value} {text taken left : List UInt8} {looked : Nat}
    {broken : Bool} (hinput : stream input = ⟨taken ++ left, broken⟩)
    (hreads : ReadsText delimiter text taken left looked)
    (hlooked : broken = true → looked ≤ (taken ++ left).length) :
    ∃ input', stream input' = ⟨left, broken⟩ ∧
      (workspace.holding (delimiter :: rest) input output).execute (.read .text) =
        (workspace.holding (textRead text ++ rest) input' output, none) := by
  have hseen : looked ≤ (taken ++ left).length ∨ left = left ∧ broken = false := by
    cases broken with
    | false => exact Or.inr ⟨rfl, rfl⟩
    | true => exact Or.inl (hlooked rfl)
  have hask : ∀ {reading answer}, Reads reading answer taken left looked →
      reading.ask (stream input) = (.ok answer, ⟨left, broken⟩) := by
    intro reading answer hreads
    rw [hinput]
    exact hreads.ask_of_seen List.prefix_rfl hseen
  cases hreads with
  | token hzero hreads =>
      obtain ⟨input', hanswer, hleft⟩ := exists_ask (hask hreads)
      have hread : Source.readToken input = _ :=
        eq_ok_of_answer (fun _ _ => Answer.token.inj) hanswer
      refine ⟨input', hleft, ?_⟩
      simp only [execute, read, readText, contents_holding, Deque.popFront?_ofList_cons, hzero,
        if_true, put_holding, input_holding, hread]
      exact congrArg (·, none) (prepend_holding ..)
  | text hnonzero hbyte hreads =>
      obtain ⟨input', hanswer, hleft⟩ := exists_ask (hask hreads)
      have hread : Source.readUntil _ input = _ :=
        eq_ok_of_answer (fun _ _ => Answer.text.inj) hanswer
      refine ⟨input', hleft, ?_⟩
      simp only [execute, read, readText, contents_holding, Deque.popFront?_ofList_cons, hnonzero,
        if_false, put_holding, input_holding, Value.toByte_eq hbyte, hread]
      exact congrArg (·, none) (prepend_holding ..)

end Workspace

omit [ByteSource ι] in
/-- Bytes are printed one after the other. -/
theorem Workspace.performs_printBytes (workspace : Workspace ι OutputBuffer) (rest : List Value)
    (input : ι) {text : List UInt8} {output : OutputBuffer} (hroom : output.HasRoom text.length) :
    (workspace.holding (text.map .ofByte ++ rest) input output).Performs
      (List.replicate text.length (.print .byte))
      (workspace.holding rest input (output.append text)) := by
  induction text generalizing output with
  | nil =>
      rw [OutputBuffer.append_nil]
      exact .nil _
  | cons byte text ih =>
      have hrest := ih (hroom.append_one byte)
      rw [OutputBuffer.append_append] at hrest
      exact performs_printByte (Value.toByte_ofByte byte) hroom hrest

/-- An instruction to read a text, and as many as the text is long to print a byte. -/
def readAndPrint (length : Nat) : List Instruction :=
  .read .text :: List.replicate length (.print .byte)

@[simp]
theorem length_readAndPrint (length : Nat) : (readAndPrint length).length = length + 1 := by
  rw [readAndPrint, List.length_cons, List.length_replicate]

theorem isPrefix_readAndPrint (length : Nat) : [.read .text] <+: readAndPrint length :=
  ⟨List.replicate length (.print .byte), rfl⟩

/-- The text is stored over a zero, and then printed. -/
theorem Workspace.performs_readAndPrint {workspace : Workspace ι OutputBuffer} {delimiter : Value}
    {rest : List Value} (hvalues : workspace.values = delimiter :: rest)
    {text taken left : List UInt8} {looked : Nat} {broken : Bool}
    (hinput : stream workspace.input = ⟨taken ++ left, broken⟩)
    (hreads : ReadsText delimiter text taken left looked)
    (hlooked : broken = true → looked ≤ (taken ++ left).length)
    (hroom : workspace.output.HasRoom text.length) :
    ∃ input, stream input = ⟨left, broken⟩ ∧
      workspace.Performs [.read .text]
        (workspace.holding (text.map .ofByte ++ .integer 0 :: rest) input workspace.output) ∧
      workspace.Performs (readAndPrint text.length)
        (workspace.holding (.integer 0 :: rest) input (workspace.output.append text)) := by
  obtain ⟨input, hleft, hexecute⟩ :=
    workspace.execute_readText rest workspace.output hinput hreads hlooked
  have hstored : textRead text ++ rest = text.map .ofByte ++ .integer 0 :: rest := by
    rw [textRead, List.append_assoc, List.singleton_append]
  rw [← hvalues, holding_self, hstored] at hexecute
  have hprints := workspace.performs_printBytes (.integer 0 :: rest) input hroom
  have hplain : Run.IsPlain (.read .text) := ⟨rfl, Instruction.noConfusion⟩
  exact ⟨input, hleft, .cons hplain hexecute (.nil _), .cons hplain hexecute hprints⟩

namespace Run

/-- A run stands before instructions to read a text and to print it, and it has steps and room
enough for them. -/
structure ReadsAndPrints (program : Program) (run : Run ι OutputBuffer) (text : List UInt8) :
    Prop where
  working : run.status = .working
  mode_eq : run.control.mode = .running
  instructions :
    readAndPrint text.length <+: program.instructions.toList.drop run.control.position
  steps : ∀ limit ∈ run.limit, run.control.steps + (text.length + 1) ≤ limit
  room : run.workspace.output.HasRoom text.length

/-- **A text survives being read and printed.**  Whatever the value in front and the bytes to be
read, there is a text to read, and any instructions that read it and print as many bytes write just
this text.  On the way its bytes stand in the register without a sign and in their order, over a
zero, and in the end there is the zero in place of the delimiter.  What is left of the input is what
the text leaves of it, and nothing else has changed.  If the input breaks off, this holds of the
texts that are read without coming to that place. -/
theorem text_survives {run : Run ι OutputBuffer} {delimiter : Value} {rest : List Value}
    (hvalues : run.workspace.values = delimiter :: rest) {bytes : List UInt8} {broken : Bool}
    (hinput : stream run.workspace.input = ⟨bytes, broken⟩) :
    (∃ text taken left looked,
      ReadsText delimiter text taken left looked ∧ bytes = taken ++ left) ∧
    ∀ {text taken left looked}, ReadsText delimiter text taken left looked →
      bytes = taken ++ left → (broken = true → looked ≤ bytes.length) →
      ∀ program, run.ReadsAndPrints program text →
        ∃ input, stream input = ⟨left, broken⟩ ∧
          (run.after program 1).workspace.values =
            text.map (fun byte => .integer (.ofNat byte.toNat)) ++ .integer 0 :: rest ∧
          (run.after program (text.length + 1)).workspace.output.written =
            run.workspace.output.written ++ text ∧
          run.after program (text.length + 1) =
            { run with
              workspace :=
                run.workspace.holding (.integer 0 :: rest) input (run.workspace.output.append text)
              control := { run.control with
                position := run.control.position + (text.length + 1)
                steps := run.control.steps + (text.length + 1) } } := by
  refine ⟨exists_readsText delimiter bytes, ?_⟩
  rintro text taken left looked hreads rfl hlooked program hstands
  obtain ⟨input, hleft, hstores, hprints⟩ :=
    Workspace.performs_readAndPrint hvalues hinput hreads hlooked hstands.room
  have hsteps : ∀ limit ∈ run.limit,
      run.control.steps + (readAndPrint text.length).length ≤ limit := by
    rw [length_readAndPrint]
    exact hstands.steps
  have hone : ∀ limit ∈ run.limit, run.control.steps + [Instruction.read .text].length ≤ limit := by
    intro limit hmem
    have hle := hstands.steps limit hmem
    rw [List.length_singleton]
    omega
  have hfirst := after_of_performs hstands.working hstands.mode_eq hone
    ((isPrefix_readAndPrint text.length).trans hstands.instructions) hstores
  have hlast :=
    after_of_performs hstands.working hstands.mode_eq hsteps hstands.instructions hprints
  rw [List.length_singleton] at hfirst
  rw [length_readAndPrint] at hlast
  refine ⟨input, hleft, ?_, ?_, hlast⟩
  · rw [hfirst]
    exact Workspace.values_holding ..
  · rw [hlast]
    exact OutputBuffer.written_append text run.workspace.output

/-- The delimiter is a multiple of 256 other than zero, so the text ends before a zero byte.
Neither of its bytes is negative, and the end of a chunk does not end it. -/
theorem text_survives_of_high_bytes :
    let program := Program.ofChars ['"', '@', '@']
    let machine : Machine :=
      { bank := (Bank.empty.push ⟨0⟩ (.integer 7)).push ⟨0⟩ (.integer 512) }
    let source : ChunkedStream := ⟨[[0xFF], [0x80, 0x00, 0x41]], false⟩
    let run : Run ChunkedStream OutputBuffer := machine.start source {}
    run.workspace.values = [.integer 512, .integer 7] ∧
      stream run.workspace.input = ⟨[0xFF, 0x80, 0x00, 0x41], false⟩ ∧
      ReadsText (.integer 512) [0xFF, 0x80] [0xFF, 0x80, 0x00] [0x41] 3 ∧
      run.ReadsAndPrints program [0xFF, 0x80] ∧
      (run.after program 3).workspace.output.written = [0xFF, 0x80] ∧
      (run.after program 3).workspace.values = [.integer 0, .integer 7] ∧
      stream (run.after program 3).workspace.input = ⟨[0x41], false⟩ := by
  intro program machine source run
  have hvalues : run.workspace.values = [.integer 512, .integer 7] := by decide
  have hinput : stream run.workspace.input = ⟨[0xFF, 0x80, 0x00, 0x41], false⟩ := rfl
  have hzero : ((0 : UInt8).toNat : Int) = (Value.integer 512).toInt64.toInt % 256 := by decide
  have hreads : ReadsText (.integer 512) [0xFF, 0x80] [0xFF, 0x80, 0x00] [0x41] 3 :=
    .text (by decide) hzero (.text (by decide))
  have hstands : run.ReadsAndPrints program [0xFF, 0x80] :=
    ⟨rfl, rfl, ⟨[], rfl⟩, nofun, nofun⟩
  obtain ⟨input, hleft, -, hwritten, hlast⟩ :=
    (text_survives hvalues hinput).2 hreads rfl nofun program hstands
  change run.after program 3 = _ at hlast
  refine ⟨hvalues, hinput, hreads, hstands, hwritten, ?_, ?_⟩
  · rw [hlast]
    exact Workspace.values_holding ..
  · rw [hlast]
    exact hleft

end Run

end LetterMachine
