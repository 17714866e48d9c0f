import LetterMachine.Proofs.Frame
import Mathlib.Order.Basic

/-!
# Output with a limit

A buffer of bounded room only cuts the output off.  A run that writes to it is the run on a buffer
of unlimited room, looked at through `OutputBuffer.bounded`, for as long as everything fits.  The
first writing that does not fit fills the buffer up and fails, and the run stops there: with the
operand taken and the bytes cut, and with all else as it is when that writing succeeds.
-/

namespace LetterMachine

namespace OutputBuffer

variable {limit : Nat} {bytes : List UInt8} {buffer : OutputBuffer}

/-- The same bytes in a buffer that holds `limit` bytes in all. -/
def bounded (limit : Nat) (buffer : OutputBuffer) : OutputBuffer :=
  { buffer with room? := some (limit - buffer.written.length) }

@[simp]
theorem written_bounded : (buffer.bounded limit).written = buffer.written := rfl

theorem write_of_unlimited (hroom : buffer.room? = none) (bytes : List UInt8) :
    buffer.write bytes = (.ok (), buffer.append bytes) := by
  simp only [write, hroom]

theorem room?_append_of_unlimited (hroom : buffer.room? = none) (bytes : List UInt8) :
    (buffer.append bytes).room? = none := by
  simp only [append, hroom, Option.map_none]

/-- What fits is written as if there were no limit. -/
theorem write_bounded_of_le (hroom : buffer.room? = none)
    (hfits : buffer.written.length + bytes.length ≤ limit) :
    (buffer.bounded limit).write bytes = (buffer.write bytes).map id (bounded limit) := by
  have hle : bytes.length ≤ limit - buffer.written.length := Nat.le_sub_of_add_le' hfits
  have hlength : (buffer.append bytes).written.length =
      buffer.written.length + bytes.length := by
    rw [written_append, List.length_append]
  rw [write_of_unlimited hroom]
  simp only [write, bounded, hle, if_true, Prod.map_apply, id, hlength, ← Nat.sub_sub]
  rfl

/-- What does not fit is cut at the limit, and the writing fails. -/
theorem write_bounded_of_lt (hle : buffer.written.length ≤ limit)
    (hlt : limit < buffer.written.length + bytes.length) :
    ((buffer.bounded limit).write bytes).1 = .error .outputFull ∧
      ((buffer.bounded limit).write bytes).2.written =
        (buffer.written ++ bytes).take limit := by
  have hnot : ¬bytes.length ≤ limit - buffer.written.length := by omega
  simp only [write, bounded, hnot, if_false, written_append, true_and]
  rw [List.take_append, List.take_of_length_le hle]
  rfl

end OutputBuffer

namespace Workspace

variable {ι ο π : Type}

/-- Replaces the sink. -/
def Change.ofOutput (change : ο → π) : Change ι ι ο π where
  bank := id
  input := id
  output := change

theorem unseen_ofOutput [Source ι] [Sink ο] [Sink π] {workspace : Workspace ι ο}
    {instruction : Instruction} {change : ο → π}
    (hwrite : ∀ bytes ∈ workspace.printing? instruction,
      Sink.write bytes (change workspace.output) =
        (Sink.write bytes workspace.output).map id change) :
    (Change.ofOutput change).Unseen workspace instruction where
  active := Bank.leavesAlone_id _
  target _ _ := Bank.leavesAlone_id _
  ask _ _ := rfl
  write := hwrite

/-- The sink after an instruction. -/
def outputAfter [Sink ο] (workspace : Workspace ι ο) (instruction : Instruction) : ο :=
  ((workspace.printing? instruction).map fun bytes =>
    (Sink.write bytes workspace.output).2).getD workspace.output

variable [Sink ο] (workspace : Workspace ι ο)

theorem output_execute [Source ι] (instruction : Instruction) :
    (workspace.execute instruction).1.output = workspace.outputAfter instruction := by
  cases instruction with
  | print form =>
      rcases hpop : workspace.contents.popFront? with _ | ⟨value, rest⟩
      · simp [execute, print, outputAfter, printing?, hpop]
      · rw [execute, print_of_popFront? _ _ hpop]
        simp [outputAfter, printing?, hpop, put]
  | _ =>
      simp [execute, output_push, output_transfer, output_shuffle, output_operate,
        output_negate, output_read, outputAfter, printing?]

variable {workspace} {form : PrintForm} {bytes : List UInt8}

omit [Sink ο] in
theorem exists_of_printing?_print (hprinting : workspace.printing? (.print form) = some bytes) :
    ∃ value rest, workspace.contents.popFront? = some (value, rest) ∧
      printed form value = bytes := by
  obtain ⟨⟨value, rest⟩, hpop, hbytes⟩ := Option.map_eq_some_iff.mp hprinting
  exact ⟨value, rest, hpop, hbytes⟩

/-- Printing is successful if the sink is. -/
theorem print_of_ok (hprinting : workspace.printing? (.print form) = some bytes)
    (hwrite : (Sink.write bytes workspace.output).1 = .ok ()) :
    (workspace.print form).2 = none := by
  obtain ⟨value, rest, hpop, rfl⟩ := exists_of_printing?_print hprinting
  rcases houtput : Sink.write (printed form value) workspace.output with ⟨result, output⟩
  obtain rfl : result = .ok () := by rwa [houtput] at hwrite
  simp only [print, printValue_eq_write, hpop, houtput]

/-- Printing fails with the sink. -/
theorem print_of_error {fault : Fault} (hprinting : workspace.printing? (.print form) = some bytes)
    (hwrite : (Sink.write bytes workspace.output).1 = .error fault) :
    (workspace.print form).2 = some (.io fault) := by
  obtain ⟨value, rest, hpop, rfl⟩ := exists_of_printing?_print hprinting
  rcases houtput : Sink.write (printed form value) workspace.output with ⟨result, output⟩
  obtain rfl : result = .error fault := by rwa [houtput] at hwrite
  simp only [print, printValue_eq_write, hpop, houtput]

end Workspace

namespace Run

open Workspace

variable {ι ο : Type} [Source ι] [Sink ο] {program : Program}

/-! ## Instructions that print -/

/-- A run is about to write bytes to the sink. -/
structure Prints (program : Program) (run : Run ι ο) (form : PrintForm) (bytes : List UInt8) :
    Prop where
  ready : run.Ready program (.print form)
  mode_eq : run.control.mode = .running
  printing?_eq : run.workspace.printing? (.print form) = some bytes

section Prints

variable {run : Run ι ο} {form : PrintForm} {bytes : List UInt8}

/-- A run goes on when the sink has taken what it prints. -/
theorem Prints.next_of_ok (hprints : run.Prints program form bytes)
    (hwrite : (Sink.write bytes run.workspace.output).1 = .ok ()) :
    (run.next program).1 =
      { run with
        workspace := (run.workspace.print form).1
        control := run.control.countStep.advance } := by
  have hmishap := print_of_ok hprints.printing?_eq hwrite
  rcases hprint : run.workspace.print form with ⟨workspace, mishap?⟩
  obtain rfl : mishap? = none := by rwa [hprint] at hmishap
  exact next_of_execute_ok hprints.ready hprints.mode_eq ⟨rfl, nofun⟩ hprint

/-- A run stops at the instruction whose bytes the sink has not taken. -/
theorem Prints.next_of_error {fault : Fault} (hprints : run.Prints program form bytes)
    (hwrite : (Sink.write bytes run.workspace.output).1 = .error fault) :
    (run.next program).1 =
      { run with
        workspace := (run.workspace.print form).1
        control := run.control.countStep
        status := .failed (.io fault) } := by
  have hmishap := print_of_error hprints.printing?_eq hwrite
  rcases hprint : run.workspace.print form with ⟨workspace, mishap?⟩
  obtain rfl : mishap? = some (.io fault) := by rwa [hprint] at hmishap
  exact next_of_execute_error hprints.ready hprints.mode_eq ⟨rfl, nofun⟩ hprint

theorem Prints.workspace_next (hprints : run.Prints program form bytes) :
    (run.next program).1.workspace = (run.workspace.print form).1 := by
  cases hwrite : (Sink.write bytes run.workspace.output).1 with
  | ok => rw [hprints.next_of_ok hwrite]
  | error fault => rw [hprints.next_of_error hwrite]

theorem Prints.output_next (hprints : run.Prints program form bytes) :
    (run.next program).1.workspace.output = (Sink.write bytes run.workspace.output).2 := by
  obtain ⟨value, rest, hpop, rfl⟩ := exists_of_printing?_print hprints.printing?_eq
  rw [hprints.workspace_next, print_of_popFront? _ _ hpop]
  rfl

/-- Nothing but printing turns to the sink. -/
theorem output_next_or_prints (program : Program) (run : Run ι ο) :
    (run.next program).1.workspace.output = run.workspace.output ∨
      ∃ form bytes, run.Prints program form bytes := by
  have htransition := run.next_transition program
  generalize run.next program = next at htransition
  cases htransition with
  | enter _ _ htake | pass _ _ htake =>
      left
      rw [← run.workspace.output_takeCondition, htake]
  | @plain instruction _ hready hmode _ hexecute
  | @mishap instruction _ _ hready hmode _ hexecute =>
      have houtput := run.workspace.output_execute instruction
      rw [hexecute] at houtput
      cases instruction with
      | print form =>
          cases hprinting : run.workspace.printing? (.print form) with
          | some bytes =>
              right
              exact ⟨form, bytes, hready, hmode, hprinting⟩
          | none =>
              left
              rwa [outputAfter, hprinting] at houtput
      | _ =>
          left
          exact houtput
  | _ =>
      left
      rfl

end Prints

/-! ## Runs on a buffer -/

section Buffer

variable {run : Run ι OutputBuffer} {form : PrintForm} {bytes : List UInt8} {limit : Nat}

/-- The bytes that a run has written so far. -/
def written (run : Run ι OutputBuffer) : List UInt8 :=
  run.workspace.output.written

/-- The same run on a buffer that holds `limit` bytes in all. -/
def bounded (limit : Nat) (run : Run ι OutputBuffer) : Run ι OutputBuffer :=
  run.changed (.ofOutput (OutputBuffer.bounded limit))

theorem unlimited_after (program : Program) (hroom : run.workspace.output.room? = none)
    (count : Nat) : (run.after program count).workspace.output.room? = none := by
  induction count with
  | zero => exact hroom
  | succ count ih =>
      rw [after_succ]
      cases output_next_or_prints program (run.after program count) with
      | inl hsame => rw [hsame, ih]
      | inr hprints =>
          obtain ⟨form, bytes, hprints⟩ := hprints
          have hwrite : Sink.write bytes (run.after program count).workspace.output = _ :=
            OutputBuffer.write_of_unlimited ih bytes
          rw [hprints.output_next, hwrite]
          exact OutputBuffer.room?_append_of_unlimited ih bytes

/-- What is printed comes behind what has been written. -/
theorem Prints.written_next (hroom : run.workspace.output.room? = none)
    (hprints : run.Prints program form bytes) :
    (run.next program).1.written = run.written ++ bytes := by
  have hwrite : Sink.write bytes run.workspace.output = _ :=
    OutputBuffer.write_of_unlimited hroom bytes
  rw [written, hprints.output_next, hwrite, OutputBuffer.written_append, written]

theorem length_written_le {earlier later : Nat} (hle : earlier ≤ later) :
    (run.after program earlier).written.length ≤ (run.after program later).written.length := by
  obtain ⟨further, rfl⟩ := Nat.exists_eq_add_of_le hle
  rw [after_add]
  exact (written_after OutputBuffer.written_grows program _ further).length_le

/-- A limit does not show as long as everything fits. -/
theorem after_bounded (hroom : run.workspace.output.room? = none) {count : Nat}
    (hfits : (run.after program count).written.length ≤ limit) :
    (run.bounded limit).after program count = (run.after program count).bounded limit := by
  apply after_changed
  intro earlier hearlier instruction hready hmode
  apply unseen_ofOutput
  intro bytes hprinting
  cases instruction with
  | print form =>
      have hprints : (run.after program earlier).Prints program form bytes :=
        ⟨hready, hmode, hprinting⟩
      have hstill := unlimited_after program hroom earlier
      have hwritten := congrArg List.length (hprints.written_next hstill)
      have hle : (run.after program (earlier + 1)).written.length ≤ _ :=
        length_written_le hearlier
      rw [after_succ, hwritten, List.length_append] at hle
      exact OutputBuffer.write_bounded_of_le hstill (hle.trans hfits)
  | _ => cases hprinting

/-- There is a first writing that goes beyond the limit. -/
theorem exists_crossing (hstart : run.written.length ≤ limit)
    (hbeyond : ∃ count, limit < (run.after program count).written.length) :
    ∃ crossing form bytes, (run.after program crossing).Prints program form bytes ∧
      (run.after program crossing).written.length ≤ limit ∧
      limit < (run.after program (crossing + 1)).written.length := by
  obtain ⟨count, hcount⟩ := hbeyond
  induction count with
  | zero => exact absurd hstart (Nat.not_le_of_lt hcount)
  | succ count ih =>
      by_cases hfits : (run.after program count).written.length ≤ limit
      · cases output_next_or_prints program (run.after program count) with
        | inl hsame =>
            rw [after_succ, written, hsame] at hcount
            exact absurd hfits (Nat.not_le_of_lt hcount)
        | inr hprints =>
            obtain ⟨form, bytes, hprints⟩ := hprints
            exact ⟨count, form, bytes, hprints, hfits, hcount⟩
      · exact ih (Nat.lt_of_not_le hfits)

/-- What is written later is the same up to the limit. -/
theorem take_written_eq {earlier later : Nat} (hle : earlier ≤ later)
    (hlimit : limit ≤ (run.after program earlier).written.length) :
    (run.after program later).written.take limit =
      (run.after program earlier).written.take limit := by
  obtain ⟨further, rfl⟩ := Nat.exists_eq_add_of_le hle
  obtain ⟨more, hmore⟩ :=
    written_after OutputBuffer.written_grows program (run.after program earlier) further
  rw [after_add, written, ← hmore]
  exact List.take_append_of_le_length hlimit

/-- How a run ends whose output goes beyond the limit: at the first instruction that writes beyond
it, with as many bytes as fit, and otherwise as the free run stands at the end of that writing. -/
structure StopsAt (program : Program) (free last : Run ι OutputBuffer) (limit crossing : Nat) :
    Prop where
  prints : ∃ form bytes, (free.after program crossing).Prints program form bytes
  fits : ∀ earlier ≤ crossing, (free.after program earlier).written.length ≤ limit
  crosses : limit < (free.after program (crossing + 1)).written.length
  status_eq : last.status = .failed (.io .outputFull)
  /-- The bytes stored are the first ones that the free run writes. -/
  written_eq : ∀ later, crossing < later →
    last.written = (free.after program later).written.take limit
  length_written : last.written.length = limit
  /-- The step is counted, and the run stays at the instruction. -/
  control_eq : last.control = (free.after program crossing).control.countStep
  control_behind : (free.after program (crossing + 1)).control = last.control.advance
  active_eq : last.workspace.active = (free.after program crossing).workspace.active
  input_eq : last.workspace.input = (free.after program crossing).workspace.input
  /-- The operand is gone, as it is when the writing succeeds. -/
  bank_eq : last.workspace.bank = (free.after program (crossing + 1)).workspace.bank
  others_eq : ∀ letter, letter ≠ last.workspace.active →
    last.workspace.bank.get letter = (free.after program crossing).workspace.bank.get letter

/-- Where bytes do not fit, the operand is taken as if they did, and what fits is stored. -/
theorem Prints.next_bounded (hprints : run.Prints program form bytes)
    (hroom : run.workspace.output.room? = none) (hfits : run.written.length ≤ limit)
    (hcrosses : limit < (run.next program).1.written.length) :
    ∃ cut : OutputBuffer, cut.written = (run.next program).1.written.take limit ∧
      ((run.bounded limit).next program).1 =
        { run with
          workspace := { (run.next program).1.workspace with output := cut }
          control := run.control.countStep
          status := .failed (.io .outputFull) } := by
  have hwritten := hprints.written_next hroom
  rw [hwritten, List.length_append] at hcrosses
  have hprints' : (run.bounded limit).Prints program form bytes :=
    ⟨⟨hprints.ready.working, hprints.ready.get?_eq, hprints.ready.exhausted?_eq⟩,
      hprints.mode_eq, hprints.printing?_eq⟩
  obtain ⟨hfull, hcut⟩ := OutputBuffer.write_bounded_of_lt hfits hcrosses
  obtain ⟨value, rest, hpop, hbytes⟩ := exists_of_printing?_print hprints.printing?_eq
  have hpop' : (run.bounded limit).workspace.contents.popFront? = some (value, rest) := hpop
  refine ⟨_, hwritten ▸ hcut, ?_⟩
  rw [hprints'.next_of_error hfull, hprints.workspace_next, print_of_popFront? _ _ hpop,
    print_of_popFront? _ _ hpop', hbytes]
  rfl

theorem stopsAt_crossing {crossing : Nat} (hroom : run.workspace.output.room? = none)
    (hprints : (run.after program crossing).Prints program form bytes)
    (hfits : (run.after program crossing).written.length ≤ limit)
    (hcrosses : limit < (run.after program (crossing + 1)).written.length) :
    run.StopsAt program ((run.bounded limit).after program (crossing + 1)) limit crossing := by
  have hstill := unlimited_after program hroom crossing
  have hfree : run.after program (crossing + 1) = _ := after_succ crossing run
  have hafter : (run.bounded limit).after program (crossing + 1) =
      (((run.after program crossing).bounded limit).next program).1 := by
    rw [after_succ, after_bounded hroom hfits]
  obtain ⟨cut, hcut, hnext⟩ := hprints.next_bounded hstill hfits (hfree ▸ hcrosses)
  have hcontrol : (run.after program (crossing + 1)).control =
      (run.after program crossing).control.countStep.advance := by
    have hwritten := congrArg Prod.fst (OutputBuffer.write_of_unlimited hstill bytes)
    rw [hfree, hprints.next_of_ok hwritten]
  have hworkspace : (run.after program (crossing + 1)).workspace =
      ((run.after program crossing).workspace.execute (.print form)).1 := by
    rw [hfree]
    exact hprints.workspace_next
  have hactive : (run.after program (crossing + 1)).workspace.active =
      (run.after program crossing).workspace.active := by
    rw [hworkspace, active_execute]
    rfl
  have hwritten : ∀ later, crossing < later →
      cut.written = (run.after program later).written.take limit := by
    intro later hlater
    rw [hcut, ← hfree, take_written_eq hlater hcrosses.le]
  rw [hafter, hnext, ← hfree]
  exact {
    prints := ⟨form, bytes, hprints⟩
    fits := fun earlier hle => (length_written_le hle).trans hfits
    crosses := hcrosses
    status_eq := rfl
    written_eq := hwritten
    length_written := by
      change cut.written.length = limit
      rw [hwritten _ (Nat.lt_succ_self crossing), List.length_take_of_le hcrosses.le]
    control_eq := rfl
    control_behind := hcontrol
    active_eq := hactive
    input_eq := by
      change (run.after program (crossing + 1)).workspace.input = _
      rw [hworkspace, input_execute]
      rfl
    bank_eq := rfl
    others_eq := by
      intro letter hletter
      change (run.after program (crossing + 1)).workspace.bank.get letter = _
      rw [hworkspace]
      exact get_execute (hactive ▸ hletter) nofun }

/-- What a limit of the output makes of a run that has none. -/
structure CutsOutput (program : Program) (free cut : Run ι OutputBuffer) (limit : Nat) : Prop where
  /-- A run that never writes more than the limit goes on in the same way. -/
  within : (∀ count, (free.after program count).written.length ≤ limit) →
    ∀ count, cut.after program count = (free.after program count).bounded limit
  /-- Any other run goes on in the same way up to the first writing beyond the limit, and it stops
  there. -/
  beyond : (∃ count, limit < (free.after program count).written.length) →
    ∃ crossing last,
      (∀ count ≤ crossing, cut.after program count = (free.after program count).bounded limit) ∧
      cut.Ends program last ∧ free.StopsAt program last limit crossing

/-- **A bounded sink cuts the output off and nothing else.** -/
theorem bounded_cutsOutput (program : Program) (machine : Machine) (input : ι) (limit : Nat) :
    CutsOutput program (machine.start input {}) (machine.start input { room? := some limit })
      limit where
  within hfits count := after_bounded rfl (hfits count)
  beyond hbeyond := by
    obtain ⟨crossing, form, bytes, hprints, hfits, hcrosses⟩ :=
      exists_crossing (Nat.zero_le limit) hbeyond
    have hstops := stopsAt_crossing rfl hprints hfits hcrosses
    refine ⟨crossing, _, ?_, ⟨?_, crossing + 1, rfl⟩, hstops⟩
    · intro count hcount
      exact after_bounded rfl (hstops.fits count hcount)
    · intro hworking
      cases hstops.status_eq.symm.trans hworking

/-- A text of two bytes is cut between them. -/
theorem bounded_cutsOutput_of_minus_one :
    let program := Program.ofChars ['0', '1', '-', '#']
    let free : Run ByteStream OutputBuffer := Machine.start {} ⟨[], false⟩ {}
    let cut : Run ByteStream OutputBuffer := Machine.start {} ⟨[], false⟩ { room? := some 1 }
    (free.after program 4).written = [0x2D, 0x31] ∧
      ∃ crossing last, cut.Ends program last ∧ free.StopsAt program last 1 crossing ∧
        last.written = [0x2D] ∧ last.control.position = 3 := by
  intro program free cut
  have hwritten : (free.after program 4).written = [0x2D, 0x31] := by decide
  have hcuts : CutsOutput program free cut 1 :=
    bounded_cutsOutput program {} (⟨[], false⟩ : ByteStream) 1
  have hbeyond : 1 < (free.after program 4).written.length := by
    rw [hwritten]
    decide
  obtain ⟨crossing, last, -, hends, hstops⟩ := hcuts.beyond ⟨4, hbeyond⟩
  have hlast : last = cut.after program 4 := hends.unique (ends_of_after (by decide))
  refine ⟨hwritten, crossing, last, hends, hstops, ?_, ?_⟩
  · rw [hlast]
    decide
  · rw [hlast]
    decide

end Buffer

end Run

end LetterMachine
