import LetterMachine.Proofs.Transitions

/-!
# Input and output

An instruction turns to the source or the sink once at most.  The first part is about what is
written: it is only ever added to.  The second part is about failures: what an instruction has
already done when its reading or its writing fails.
-/

namespace LetterMachine

/-- A view of a sink as the bytes written to it, to which a writing adds at the end. -/
def Sink.Grows {ο : Type} [Sink ο] (written : ο → List UInt8) : Prop :=
  ∀ bytes output, written output <+: written (Sink.write bytes output).2

theorem OutputBuffer.written_grows : Sink.Grows OutputBuffer.written := by
  intro bytes buffer
  change buffer.written <+: (buffer.write bytes).2.written
  cases hroom : buffer.room? with
  | none => simp [write, hroom]
  | some room =>
      simp only [write, hroom]
      split <;> simp

namespace Workspace

variable {ι ο : Type} (workspace : Workspace ι ο)

/-! ## What is written -/

theorem output_push (value : Value) : (workspace.push value).output = workspace.output := rfl

theorem output_transfer (target : Letter) :
    (workspace.transfer target).output = workspace.output := by
  unfold transfer
  split <;> rfl

theorem output_shuffle (kind : Shuffle) : (workspace.shuffle kind).output = workspace.output := by
  unfold shuffle
  split <;> rfl

theorem output_operate (operator : Operator) :
    (workspace.operate operator).1.output = workspace.output := by
  unfold operate
  split
  · rfl
  · split <;> rfl

theorem output_negate : workspace.negate.output = workspace.output := by
  unfold negate
  split <;> rfl

theorem output_takeCondition : workspace.takeCondition.2.output = workspace.output := by
  unfold takeCondition
  split <;> rfl

theorem output_afterReading {result : Type} {use : Workspace ι ο → result → Workspace ι ο}
    (reading : Except Fault result × ι)
    (huse : ∀ workspace result, (use workspace result).output = workspace.output) :
    (workspace.afterReading reading use).1.output = workspace.output := by
  obtain ⟨outcome, input⟩ := reading
  cases outcome with
  | ok result => exact huse { workspace with input := input } result
  | error fault => rfl

theorem output_read [Source ι] (form : ReadForm) :
    (workspace.read form).1.output = workspace.output := by
  cases form with
  | number | byte =>
      apply output_afterReading
      intro workspace result
      rfl
  | text =>
      simp only [read, readText]
      split
      · rfl
      · split
        all_goals
          apply output_afterReading
          intro workspace result
          rfl

variable [Sink ο]

/-- What printing leaves does not depend on whether the sink has failed. -/
theorem print_of_popFront? {value : Value} {rest : Register} (form : PrintForm)
    (hpop : workspace.contents.popFront? = some (value, rest)) :
    (workspace.print form).1 =
      { workspace with
        output := (Sink.write (printed form value) workspace.output).2 }.put rest := by
  rcases hwrite : Sink.write (printed form value) workspace.output with ⟨result, output⟩
  simp only [print, printValue_eq_write, hpop, hwrite]
  cases result <;> rfl

variable {written : ο → List UInt8}

theorem written_print (hgrows : Sink.Grows written) (form : PrintForm) :
    written workspace.output <+: written (workspace.print form).1.output := by
  rcases hpop : workspace.contents.popFront? with _ | ⟨value, rest⟩
  · simp only [print, hpop, List.prefix_rfl]
  · rw [print_of_popFront? _ _ hpop]
    exact hgrows _ _

theorem written_execute [Source ι] (hgrows : Sink.Grows written) (instruction : Instruction) :
    written workspace.output <+: written (workspace.execute instruction).1.output := by
  cases instruction with
  | print form => exact workspace.written_print hgrows form
  | _ =>
      simp only [execute, output_push, output_transfer, output_shuffle, output_operate,
        output_negate, output_read, List.prefix_rfl]

end Workspace

namespace Run

variable {ι ο : Type} [Source ι] [Sink ο] {written : ο → List UInt8}

theorem written_next (hgrows : Sink.Grows written) (program : Program) (run : Run ι ο) :
    written run.workspace.output <+: written (run.next program).1.workspace.output := by
  have htransition := run.next_transition program
  generalize run.next program = next at htransition
  cases htransition with
  | enter _ _ htake | pass _ _ htake =>
      have houtput := run.workspace.output_takeCondition
      rw [htake] at houtput
      exact houtput ▸ List.prefix_rfl
  | @plain instruction _ _ _ _ hexecute | @mishap instruction _ _ _ _ _ hexecute =>
      have hwritten := run.workspace.written_execute hgrows instruction
      rw [hexecute] at hwritten
      exact hwritten
  | _ => exact List.prefix_rfl

/-- What has been written stays written. -/
theorem written_after (hgrows : Sink.Grows written) (program : Program) (run : Run ι ο)
    (count : Nat) :
    written run.workspace.output <+: written (run.after program count).workspace.output := by
  induction count with
  | zero => exact List.prefix_rfl
  | succ count ih =>
      rw [after_succ]
      exact ih.trans (written_next hgrows program _)

end Run

/-! ## Failures of the source and the sink -/

namespace Workspace

variable {ι ο : Type} [Source ι] [Sink ο]

/-- Every way in which an instruction fails with the source or the sink, and what it leaves.  A
number and a byte are read before anything is changed.  The other instructions have already taken
their operand, and do not put it back. -/
inductive Fails (workspace : Workspace ι ο) (fault : Fault) :
    Instruction → Workspace ι ο → Prop where
  | number {input : ι} (hread : Source.readToken workspace.input = (.error fault, input)) :
      Fails workspace fault (.read .number) { workspace with input := input }
  | byte {input : ι} (hread : Source.readByte workspace.input = (.error fault, input)) :
      Fails workspace fault (.read .byte) { workspace with input := input }
  | token {delimiter : Value} {rest : Register} {input : ι}
      (hpop : workspace.contents.popFront? = some (delimiter, rest))
      (hzero : delimiter.toInt64 = 0)
      (hread : Source.readToken workspace.input = (.error fault, input)) :
      Fails workspace fault (.read .text) ({ workspace with input := input }.put rest)
  | text {delimiter : Value} {rest : Register} {input : ι}
      (hpop : workspace.contents.popFront? = some (delimiter, rest))
      (hnonzero : delimiter.toInt64 ≠ 0)
      (hread : Source.readUntil delimiter.toByte workspace.input = (.error fault, input)) :
      Fails workspace fault (.read .text) ({ workspace with input := input }.put rest)
  | print {form : PrintForm} {value : Value} {rest : Register} {output : ο}
      (hpop : workspace.contents.popFront? = some (value, rest))
      (hwrite : Sink.write (printed form value) workspace.output = (.error fault, output)) :
      Fails workspace fault (.print form) ({ workspace with output := output }.put rest)

variable {workspace after : Workspace ι ο} {fault : Fault}

omit [Source ι] [Sink ο] in
theorem eq_error_of_afterReading {result : Type} {use : Workspace ι ο → result → Workspace ι ο}
    {reading : Except Fault result × ι}
    (hfault : workspace.afterReading reading use = (after, some (.io fault))) :
    ∃ input, reading = (.error fault, input) ∧ after = { workspace with input := input } := by
  obtain ⟨outcome, input⟩ := reading
  cases outcome with
  | ok result => cases hfault
  | error found =>
      cases hfault
      exact ⟨input, rfl, rfl⟩

theorem fails_of_print {form : PrintForm}
    (hfault : workspace.print form = (after, some (.io fault))) :
    workspace.Fails fault (.print form) after := by
  rcases hpop : workspace.contents.popFront? with _ | ⟨value, rest⟩
  · simp only [print, hpop] at hfault
    cases hfault
  · rcases hwrite : Sink.write (printed form value) workspace.output with ⟨result, output⟩
    simp only [print, printValue_eq_write, hpop, hwrite] at hfault
    cases result with
    | ok => cases hfault
    | error found =>
        cases hfault
        exact .print hpop hwrite

theorem fails_of_readText (hfault : workspace.readText = (after, some (.io fault))) :
    workspace.Fails fault (.read .text) after := by
  rcases hpop : workspace.contents.popFront? with _ | ⟨delimiter, rest⟩
  · simp only [readText, hpop] at hfault
    cases hfault
  · by_cases hzero : delimiter.toInt64 = 0
    · simp only [readText, hpop, hzero, if_true] at hfault
      obtain ⟨input, hread, rfl⟩ := eq_error_of_afterReading hfault
      exact .token hpop hzero hread
    · simp only [readText, hpop, hzero, if_false] at hfault
      obtain ⟨input, hread, rfl⟩ := eq_error_of_afterReading hfault
      exact .text hpop hzero hread

/-- An instruction that fails with the source or the sink does so in one of these ways. -/
theorem fails_of_execute {instruction : Instruction}
    (hfault : workspace.execute instruction = (after, some (.io fault))) :
    workspace.Fails fault instruction after := by
  cases instruction with
  | print form => exact fails_of_print hfault
  | read form =>
      simp only [execute, read] at hfault
      cases form with
      | number =>
          obtain ⟨input, hread, rfl⟩ := eq_error_of_afterReading hfault
          exact .number hread
      | byte =>
          obtain ⟨input, hread, rfl⟩ := eq_error_of_afterReading hfault
          exact .byte hread
      | text => exact fails_of_readText hfault
  | operate operator =>
      simp only [execute, operate] at hfault
      split at hfault
      · cases hfault
      · split at hfault <;> cases hfault
  | _ => cases hfault

end Workspace

/-- The instructions that take the front value of the active register before they turn to the source
or the sink. -/
def Instruction.takesOperand : Instruction → Bool
  | .print _ | .read .text => true
  | _ => false

namespace Workspace

variable {ι ο : Type} [Source ι] [Sink ο] {workspace after : Workspace ι ο} {fault : Fault}
  {instruction : Instruction}

theorem Fails.active_eq (hfails : workspace.Fails fault instruction after) :
    after.active = workspace.active := by
  cases hfails <;> rfl

theorem Fails.bank_eq (hfails : workspace.Fails fault instruction after)
    (hoperand : instruction.takesOperand = false) : after.bank = workspace.bank := by
  cases hfails with
  | number | byte => rfl
  | token | text | print => cases hoperand

theorem Fails.exists_operand (hfails : workspace.Fails fault instruction after)
    (hoperand : instruction.takesOperand = true) :
    ∃ operand rest, workspace.contents.popFront? = some (operand, rest) ∧
      after.bank = workspace.bank.set workspace.active rest := by
  cases hfails with
  | number | byte => cases hoperand
  | token hpop | text hpop | print hpop => exact ⟨_, _, hpop, rfl⟩

omit [Source ι] [Sink ο] in
/-- A register is not the same without its front value. -/
theorem set_ne_of_popFront? {operand : Value} {rest : Register}
    (hpop : workspace.contents.popFront? = some (operand, rest)) :
    workspace.bank.set workspace.active rest ≠ workspace.bank := by
  intro hsame
  have hrest : workspace.contents = rest := by
    rw [contents, ← hsame, Bank.get_set_self]
  have hlength := congrArg List.length (Deque.toList_of_popFront? hpop)
  rw [hrest, List.length_cons] at hlength
  omega

end Workspace

namespace Run

variable {ι ο : Type} [Source ι] [Sink ο] {program : Program}

/-- A run that fails with the source or the sink does so at an instruction that it executes. -/
theorem exists_fails_of_next {run : Run ι ο} {fault : Fault} (hworking : run.status = .working)
    (hfailed : (run.next program).1.status = .failed (.io fault)) :
    ∃ instruction, run.Ready program instruction ∧
      run.workspace.Fails fault instruction (run.next program).1.workspace := by
  have htransition := run.next_transition program
  generalize run.next program = next at htransition hfailed
  cases htransition with
  | ended hended => exact absurd hworking hended
  | halt | exhausted | unmatched => cases hfailed
  | skip | enter | pass | back | leave | plain =>
      simp only [hworking] at hfailed
      cases hfailed
  | @mishap instruction workspace mishap hready _ _ hexecute =>
      cases mishap with
      | remainderByZero => cases hfailed
      | io found =>
          cases hfailed
          exact ⟨instruction, hready, Workspace.fails_of_execute hexecute⟩

/-- **What is left after a failure of the source or the sink.**  The register that is active stays
so.  All registers stay as they were if a number or a byte was to be read.  If something was to be
printed or a text was to be read, the operand is gone, and the registers are never those before the
instruction. -/
theorem registers_of_io_failure {run : Run ι ο} {fault : Fault} (hworking : run.status = .working)
    (hfailed : (run.next program).1.status = .failed (.io fault)) :
    ∃ instruction, program.get? run.control.position = some instruction ∧
      (run.next program).1.workspace.active = run.workspace.active ∧
      (instruction.takesOperand = false →
        (run.next program).1.workspace.bank = run.workspace.bank) ∧
      (instruction.takesOperand = true →
        (run.next program).1.workspace.bank ≠ run.workspace.bank ∧
        ∃ operand rest, run.workspace.contents.popFront? = some (operand, rest) ∧
          (run.next program).1.workspace.bank =
            run.workspace.bank.set run.workspace.active rest) := by
  obtain ⟨instruction, hready, hfails⟩ := exists_fails_of_next hworking hfailed
  refine ⟨instruction, hready.get?_eq, hfails.active_eq, hfails.bank_eq, ?_⟩
  intro hoperand
  obtain ⟨operand, rest, hpop, hbank⟩ := hfails.exists_operand hoperand
  constructor
  · rw [hbank]
    exact Workspace.set_ne_of_popFront? hpop
  · exact ⟨operand, rest, hpop, hbank⟩

/-- The delimiter of a text that cannot be read is lost. -/
theorem registers_of_broken_source :
    let program := Program.ofChars ['5', '"']
    let start : Run ByteStream OutputBuffer := Machine.start {} ⟨[], true⟩ ⟨none, []⟩
    let run := start.after program 1
    run.status = .working ∧ (run.next program).1.status = .failed (.io .inputFailed) ∧
      (run.next program).1.workspace.bank ≠ run.workspace.bank := by
  intro program start run
  have hworking : run.status = .working := rfl
  have hfailed : (run.next program).1.status = .failed (.io .inputFailed) := by decide
  obtain ⟨instruction, hget, -, -, hoperand⟩ := registers_of_io_failure hworking hfailed
  obtain rfl : Instruction.read .text = instruction := Option.some.inj hget
  exact ⟨hworking, hfailed, (hoperand rfl).1⟩

/-- A byte that a full sink does not take is lost. -/
theorem registers_of_full_sink :
    let program := Program.ofChars ['5', '@']
    let start : Run ByteStream OutputBuffer := Machine.start {} ⟨[], false⟩ ⟨some 0, []⟩
    let run := start.after program 1
    run.status = .working ∧ (run.next program).1.status = .failed (.io .outputFull) ∧
      (run.next program).1.workspace.bank ≠ run.workspace.bank := by
  decide

end Run

end LetterMachine
