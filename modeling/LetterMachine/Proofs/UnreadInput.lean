import LetterMachine.Proofs.Frame

/-!
# Input that is not read

A run learns of its input only what it looks at.  If it gets on with a reader that breaks off
somewhere, it has not looked at the place where the reader breaks off, nor at anything beyond, and
so it does the same with every input that begins with the same bytes.  The comparison is made in two
steps: a reader is replaced by the list of its bytes, and that list is continued behind its end.
-/

namespace LetterMachine

namespace ByteStream

/-- The stream continued by more bytes, after which it breaks off or ends. -/
def extend (more : List UInt8) (broken : Bool) (stream : ByteStream) : ByteStream :=
  ⟨stream.bytes ++ more, broken⟩

theorem drop_drop (first second : Nat) (stream : ByteStream) :
    (stream.drop first).drop second = stream.drop (first + second) := by
  simp [drop]

theorem extend_drop {stream : ByteStream} {count : Nat} (hlength : count ≤ stream.bytes.length)
    (more : List UInt8) (broken : Bool) :
    (stream.drop count).extend more broken = (stream.extend more broken).drop count := by
  simp only [extend, drop, List.drop_append_of_le_length hlength]

/-- A reading that does not fail where a stream breaks off is the same if the stream goes on. -/
theorem ask_extend {stream : ByteStream} (hbroken : stream.broken = true) (more : List UInt8)
    (broken : Bool) (reading : Reading) :
    (reading.ask stream).1 = .error .inputFailed ∨
      reading.ask (stream.extend more broken) =
        (reading.ask stream).map id (extend more broken) := by
  obtain ⟨bytes, broken'⟩ := stream
  obtain rfl : broken' = true := hbroken
  obtain ⟨answer, taken, rest, looked, hreads, hbytes⟩ := exists_reads reading (bytes ++ more)
  by_cases hlooked : looked ≤ bytes.length
  · right
    have hlength := hreads.length_le_looked.trans hlooked
    have hprefix : taken <+: bytes ++ more := by
      rw [hbytes]
      exact List.prefix_append _ _
    obtain ⟨seen, rfl⟩ := List.prefix_of_prefix_length_le hprefix (List.prefix_append _ _) hlength
    obtain rfl : seen ++ more = rest :=
      List.append_cancel_left ((List.append_assoc ..).symm.trans hbytes)
    have hcut : reading.ask (ByteStream.mk (taken ++ seen) true) = _ :=
      hreads.ask_of_seen (List.prefix_append _ _) (Or.inl hlooked)
    have hwhole : reading.ask (ByteStream.mk (taken ++ (seen ++ more)) broken) = _ :=
      hreads.ask_of_seen List.prefix_rfl (Or.inl (by simp at hlooked ⊢; omega))
    rw [extend, List.append_assoc, hwhole, hcut]
    rfl
  · left
    have hfails := hreads.ask_of_lt (Nat.lt_of_not_le hlooked)
    rw [← hbytes, List.take_left] at hfails
    rw [hfails]

/-- What a reading leaves of a stream is its last part. -/
theorem exists_drop_of_ask (reading : Reading) (stream : ByteStream) :
    ∃ count ≤ stream.bytes.length, (reading.ask stream).2 = stream.drop count := by
  have hsuffix : ∀ left : ByteStream, left.bytes <:+ stream.bytes → left.broken = stream.broken →
      ∃ count ≤ stream.bytes.length, left = stream.drop count := by
    rintro ⟨left, broken⟩ ⟨taken, htaken⟩ rfl
    refine ⟨taken.length, ?_, ?_⟩
    · rw [← htaken, List.length_append]
      exact Nat.le_add_right _ _
    · rw [drop, ← htaken, List.drop_left]
  apply hsuffix
  · cases reading with
    | token => exact (List.dropWhile_suffix _).trans (List.dropWhile_suffix _)
    | byte =>
        change (readByte stream).2.bytes <:+ stream.bytes
        unfold readByte
        split
        · rename_i byte rest heq
          exact heq ▸ List.suffix_cons byte rest
        · exact List.suffix_rfl
    | text delimiter => exact (List.drop_suffix ..).trans (List.dropWhile_suffix _)
  · cases reading with
    | token | text => rfl
    | byte =>
        change (readByte stream).2.broken = stream.broken
        unfold readByte
        split <;> rfl

end ByteStream

namespace Tape

/-- What can be read behind the first bytes of a tape is what is left when they have been read. -/
theorem stream_drop {tape : Tape} {count : Nat} (hlength : count ≤ tape.bytes.length)
    (hlimit : ∀ limit ∈ tape.limit?, count ≤ limit) :
    (tape.drop count).stream = tape.stream.drop count := by
  have htaken : (tape.bytes.take count).length = count := List.length_take_of_le hlength
  have hbytes : tape.bytes = tape.bytes.take count ++ tape.bytes.drop count :=
    (List.take_append_drop ..).symm
  have happend := stream_append hbytes (by rwa [htaken])
  rw [htaken] at happend
  rw [happend, ByteStream.drop]
  simp only [List.drop_left' htaken]

end Tape

namespace Workspace

variable {ι κ ο : Type}

/-- Replaces the source. -/
def Change.ofInput (change : ι → κ) : Change ι κ ο ο where
  bank := id
  input := change
  output := id

variable [Source ι] [Source κ] [Sink ο] {workspace : Workspace ι ο} {instruction : Instruction}

theorem unseen_ofInput {change : ι → κ}
    (hask : ∀ reading ∈ workspace.reading? instruction,
      reading.ask (change workspace.input) = (reading.ask workspace.input).map id change) :
    (Change.ofInput change).Unseen workspace instruction where
  active := Bank.leavesAlone_id _
  target _ _ := Bank.leavesAlone_id _
  ask := hask
  write _ _ := rfl

omit [Source ι] [Sink ο] in
theorem afterReading_of_error {result : Type} {answer : result → Answer} {fault : Fault}
    {reading : Except Fault result × ι} (use : Workspace ι ο → result → Workspace ι ο)
    (hfails : (reading.map (·.map answer) id).1 = .error fault) :
    (workspace.afterReading reading use).2 = some (.io fault) := by
  obtain ⟨outcome, input⟩ := reading
  cases outcome with
  | ok result => cases hfails
  | error found =>
      cases hfails
      rfl

/-- An instruction fails if what it asks of the source fails. -/
theorem execute_of_ask_error {reading : Reading} {fault : Fault}
    (hreading : reading ∈ workspace.reading? instruction)
    (hfails : (reading.ask workspace.input).1 = .error fault) :
    (∃ form, instruction = .read form) ∧
      (workspace.execute instruction).2 = some (.io fault) := by
  cases instruction with
  | read form =>
      refine ⟨⟨form, rfl⟩, ?_⟩
      cases form with
      | number | byte =>
          cases hreading
          exact afterReading_of_error _ hfails
      | text =>
          rcases hpop : workspace.contents.popFront? with _ | ⟨delimiter, rest⟩
          · simp [reading?, hpop] at hreading
          · simp only [reading?, hpop, Option.map_some, Option.mem_some_iff] at hreading
            by_cases hzero : delimiter.toInt64 = 0
            · simp only [execute, read, readText, hpop, hzero, if_true] at hreading ⊢
              subst hreading
              exact afterReading_of_error _ hfails
            · simp only [execute, read, readText, hpop, hzero, if_false] at hreading ⊢
              subst hreading
              exact afterReading_of_error _ hfails
  | _ => cases hreading

end Workspace

open Workspace

namespace Run

variable {ι ο : Type} [Source ι] [Sink ο] {program : Program}

/-- The run has failed with the source: at an instruction that reads. -/
def FailedReading (program : Program) (run : Run ι ο) : Prop :=
  ∃ fault form, run.status = .failed (.io fault) ∧
    program.get? run.control.position = some (.read form)

theorem failedReading_next {run : Run ι ο} {instruction : Instruction} {reading : Reading}
    {fault : Fault} (hready : run.Ready program instruction) (hmode : run.control.mode = .running)
    (hreading : reading ∈ run.workspace.reading? instruction)
    (hfails : (reading.ask run.workspace.input).1 = .error fault) :
    (run.next program).1.FailedReading program := by
  obtain ⟨⟨form, rfl⟩, hmishap⟩ := execute_of_ask_error hreading hfails
  refine ⟨fault, form, ?_⟩
  rw [next_of_ready hready]
  rcases hexecute : run.workspace.execute (.read form) with ⟨workspace, mishap?⟩
  rw [hexecute] at hmishap
  subst hmishap
  simp only [step, hmode, execute, executePlain, hexecute]
  exact ⟨rfl, hready.get?_eq⟩

theorem FailedReading.after {run : Run ι ο} {earlier count : Nat}
    (hfailed : (run.after program earlier).FailedReading program) (hle : earlier ≤ count) :
    (run.after program count).FailedReading program := by
  have hfailed' := hfailed
  obtain ⟨fault, form, hstatus, -⟩ := hfailed
  obtain ⟨further, rfl⟩ := Nat.exists_eq_add_of_le hle
  rw [after_add, after_of_ended (by rw [hstatus]; nofun)]
  exact hfailed'

/-! ## Runs on a stream -/

section Stream

variable {ο : Type} [Sink ο] {program : Program}

theorem exists_drop_of_next (program : Program) (run : Run ByteStream ο) :
    ∃ count ≤ run.workspace.input.bytes.length,
      (run.next program).1.workspace.input = run.workspace.input.drop count := by
  obtain hsame | htake | hexecute := run.workspace_next program
  · exact ⟨0, Nat.zero_le _, congrArg (·.input) hsame⟩
  · rw [htake, input_takeCondition]
    exact ⟨0, Nat.zero_le _, rfl⟩
  · obtain ⟨instruction, -, hexecute⟩ := hexecute
    rw [hexecute, input_execute, inputAfter]
    cases run.workspace.reading? instruction with
    | none => exact ⟨0, Nat.zero_le _, rfl⟩
    | some reading => exact ByteStream.exists_drop_of_ask reading run.workspace.input

/-- A run takes bytes from the front of its input, and leaves the others. -/
theorem exists_drop_of_after (program : Program) (run : Run ByteStream ο) (count : Nat) :
    ∃ taken ≤ run.workspace.input.bytes.length,
      (run.after program count).workspace.input = run.workspace.input.drop taken := by
  induction count with
  | zero => exact ⟨0, Nat.zero_le _, rfl⟩
  | succ count ih =>
      obtain ⟨taken, htaken, hinput⟩ := ih
      obtain ⟨more, hmore, hnext⟩ := exists_drop_of_next program (run.after program count)
      rw [hinput, ByteStream.drop, List.length_drop] at hmore
      refine ⟨taken + more, by omega, ?_⟩
      rw [after_succ, hnext, hinput, ByteStream.drop_drop]

/-- A run on a stream that breaks off goes on in the same way if the stream is continued, unless it
fails at a reading. -/
theorem after_extended {run : Run ByteStream ο} (hbroken : run.workspace.input.broken = true)
    (more : List UInt8) (broken : Bool) {count : Nat}
    (hgoes : ¬(run.after program count).FailedReading program) :
    (run.changed (.ofInput (ByteStream.extend more broken))).after program count =
      (run.after program count).changed (.ofInput (ByteStream.extend more broken)) := by
  apply after_changed
  intro earlier hearlier instruction hready hmode
  apply unseen_ofInput
  intro reading hreading
  have hstill : (run.after program earlier).workspace.input.broken = true := by
    obtain ⟨taken, -, hinput⟩ := exists_drop_of_after program run earlier
    rw [hinput]
    exact hbroken
  cases ByteStream.ask_extend hstill more broken reading with
  | inl hfails =>
      have hfailed := failedReading_next hready hmode hreading hfails
      rw [← after_succ] at hfailed
      exact absurd (hfailed.after hearlier) hgoes
  | inr hsame => exact hsame

end Stream

/-! ## Runs on a reader -/

section Reader

variable {ρ σ ο : Type} [PieceReader ρ] [PieceReader σ] [Sink ο] {program : Program}

/-- A run on a reader goes on as the run on the bytes of the reader does. -/
theorem after_rest (program : Program) (run : Run ρ ο) (count : Nat) :
    (run.changed (.ofInput PieceReader.rest)).after program count =
      (run.after program count).changed (.ofInput PieceReader.rest) := by
  apply after_changed
  intro earlier _ instruction _ _
  apply unseen_ofInput
  intro reading _
  exact (PieceReader.rest_ask reading _).symm

/-- **Input that is not read has no influence.**  Let a run go on without failing at a reading,
though its reader breaks off after a number of bytes.  Then a run on any reader of any input that
begins with the same bytes, and that breaks off there or later or not at all, goes on in the same
way: both have the same status, control and registers, have written the same, and have taken the
same number of bytes. -/
theorem unread_input_has_no_influence (program : Program) (machine : Machine) (output : ο)
    {first second : Tape} {limit : Nat} (hlimit : first.limit? = some limit)
    (hlength : limit ≤ first.bytes.length)
    (hsame : second.bytes.take limit = first.bytes.take limit)
    (hlater : ∀ later ∈ second.limit?, limit ≤ later) {reader : ρ} {other : σ}
    (hreader : PieceReader.rest reader = first.stream)
    (hother : PieceReader.rest other = second.stream) (count : Nat)
    (hgoes : ¬((machine.start reader output).after program count).FailedReading program) :
    let cut := (machine.start reader output).after program count
    let run := (machine.start other output).after program count
    run.status = cut.status ∧ run.control = cut.control ∧
      run.workspace.bank = cut.workspace.bank ∧ run.workspace.active = cut.workspace.active ∧
      run.workspace.output = cut.workspace.output ∧
      ∃ taken ≤ limit, PieceReader.rest cut.workspace.input = (first.drop taken).stream ∧
        PieceReader.rest run.workspace.input = (second.drop taken).stream := by
  intro cut run
  have hlength' : limit ≤ second.bytes.length := by
    have htake := congrArg List.length hsame
    simp only [List.length_take] at htake
    omega
  have hfirst := Tape.stream_of_limit hlimit hlength
  -- The second input is the first one, continued behind the limit.
  obtain ⟨more, broken, hsecond⟩ : ∃ more broken, second.stream =
      first.stream.extend more broken := by
    have hbytes : second.bytes = first.bytes.take limit ++ second.bytes.drop limit := by
      rw [← hsame, List.take_append_drop]
    have hbefore : (first.bytes.take limit).length = limit := List.length_take_of_le hlength
    have happend := Tape.stream_append hbytes (by rwa [hbefore])
    exact ⟨_, _, by rw [happend, hfirst, ByteStream.extend]⟩
  let stream : Run ByteStream ο := machine.start first.stream output
  have hcut : cut.changed (.ofInput PieceReader.rest) = stream.after program count := by
    have hstart : (machine.start reader output).changed (.ofInput PieceReader.rest) = stream :=
      congrArg (machine.start · output) hreader
    rw [← hstart, after_rest]
  have hrun : run.changed (.ofInput PieceReader.rest) =
      (stream.after program count).changed (.ofInput (ByteStream.extend more broken)) := by
    have hstart : (machine.start other output).changed (.ofInput PieceReader.rest) =
        stream.changed (.ofInput (ByteStream.extend more broken)) :=
      congrArg (machine.start · output) (hother.trans hsecond)
    have hbroken : stream.workspace.input.broken = true := congrArg ByteStream.broken hfirst
    rw [← after_extended hbroken more broken (hcut ▸ hgoes), ← hstart, after_rest]
  obtain ⟨taken, htaken, hinput⟩ : ∃ taken ≤ first.stream.bytes.length,
      (stream.after program count).workspace.input = first.stream.drop taken :=
    exists_drop_of_after program stream count
  have hlimited : taken ≤ limit := by
    rwa [hfirst, List.length_take_of_le hlength] at htaken
  have hcutInput : PieceReader.rest cut.workspace.input = first.stream.drop taken :=
    (congrArg (·.workspace.input) hcut).trans hinput
  have hrunInput : PieceReader.rest run.workspace.input = second.stream.drop taken := by
    rw [hsecond, ← ByteStream.extend_drop htaken, ← hinput]
    exact congrArg (·.workspace.input) hrun
  rw [← hcut] at hrun
  refine ⟨congrArg (·.status) hrun, congrArg (·.control) hrun, congrArg (·.workspace.bank) hrun,
    congrArg (·.workspace.active) hrun, congrArg (·.workspace.output) hrun, taken, hlimited, ?_, ?_⟩
  · have hbefore : ∀ later ∈ first.limit?, taken ≤ later := by
      rw [hlimit]
      simpa using hlimited
    rw [hcutInput, Tape.stream_drop (hlimited.trans hlength) hbefore]
  · rw [hrunInput, Tape.stream_drop (hlimited.trans hlength')]
    intro later hmem
    exact hlimited.trans (hlater later hmem)

/-- One byte is read of a reader that breaks off behind it, and then of one that goes on. -/
theorem unread_input_has_no_influence_on_copy :
    let program := Program.ofChars ['\x27', '@']
    let first : Tape := ⟨[0x61, 0x62], some 1⟩
    let second : Tape := ⟨[0x61, 0x63, 0x64], some 2⟩
    let reader : ChunkedStream := ⟨[[0x61]], true⟩
    let other : ChunkedStream := ⟨[[], [0x61, 0x63]], true⟩
    let cut : Run ChunkedStream OutputBuffer := Machine.start {} reader {}
    let run : Run ChunkedStream OutputBuffer := Machine.start {} other {}
    PieceReader.rest reader = first.stream ∧ PieceReader.rest other = second.stream ∧
      ¬(cut.after program 3).FailedReading program ∧
      (run.after program 3).status = .halted ∧
      (run.after program 3).workspace.output.written = [0x61] := by
  intro program first second reader other cut run
  have hhalted : (cut.after program 3).status = .halted := by decide
  have hwritten : (cut.after program 3).workspace.output.written = [0x61] := by decide
  have hgoes : ¬(cut.after program 3).FailedReading program := by
    intro hfailed
    obtain ⟨fault, form, hstatus, -⟩ := hfailed
    cases hhalted.symm.trans hstatus
  have hreader : PieceReader.rest reader = first.stream := rfl
  have hother : PieceReader.rest other = second.stream := rfl
  have hlimit : first.limit? = some 1 := rfl
  have hlength : 1 ≤ first.bytes.length := by decide
  have hsame : second.bytes.take 1 = first.bytes.take 1 := rfl
  have hlater : ∀ later ∈ second.limit?, 1 ≤ later := by decide
  subst cut run
  obtain ⟨hstatus, -, -, -, houtput, -⟩ := unread_input_has_no_influence program {}
    (OutputBuffer.mk none []) hlimit hlength hsame hlater hreader hother 3 hgoes
  rw [hstatus, houtput]
  exact ⟨hreader, hother, hgoes, hhalted, hwritten⟩

end Reader

end Run

end LetterMachine
