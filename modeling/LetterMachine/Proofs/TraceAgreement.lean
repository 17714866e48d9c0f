import LetterMachine.Proofs.Answers
import LetterMachine.Proofs.BufferedRuns
import LetterMachine.Proofs.IndexColumns

/-!
# A program that is run and a program that is traced

To trace a program is to run it and to tell of it.  The two commands are carried out apart from each
other, each with a machine of its own, with a flush of its own and with its own order of looking at
what has gone wrong.  They find the program in the same way, though, and what they carry on is one
run of the machine.  So either both are answered or neither is, with the same bytes on the standard
output and the same exit status, and the trace stands on the standard error before whatever an error
has to say there.

What goes to the standard output is what the run has written, as long as the device behind it takes
everything.  For a device that does not, the two commands still agree.
-/

namespace LetterMachine.CommandLine

variable {ο : Type} [Device ο]

/-- The bytes that a task has put on the standard output so far. -/
def Task.output : Task ο → List UInt8
  | .answered response => response.stdout
  | .running execution => execution.run.workspace.output.output
  | .tracing _ execution => execution.run.workspace.output.output

/-- There is a program, and its run fails, or what it has written cannot be flushed. -/
def World.Fails (world : World) (path? : Option String) (fuel? : Option UInt64) (stdout : ο) :
    Prop :=
  ∃ program input last, world.prepare path? = .ok (some (program, input)) ∧
    (bufferedRun fuel? input stdout).Ends program last ∧
      ((∃ failure, last.status = .failed failure) ∨
        ∃ fault, last.workspace.output.flush.1 = .error fault)

/-- What the answers to running a program and to tracing it have in common. -/
structure Agree (world : World) (path? : Option String) (fuel? : Option UInt64) (stdout : ο)
    (style : Program → TraceStyle) (run traced : Response) : Prop where
  exit_eq : traced.exit = run.exit
  stdout_eq : traced.stdout = run.stdout
  exit_le : run.exit ≤ 2
  exit_eq_one_iff : run.exit = 1 ↔ world.Unloadable path?
  /-- Nothing is put out without a program. -/
  stdout_of_exit_one : run.exit = 1 → run.stdout = Device.output stdout
  exit_eq_two_iff : run.exit = 2 ↔ world.Fails path? fuel? stdout
  /-- Without a path nothing is done and nothing is said. -/
  of_noPath : world.NoPath path? →
    run = ⟨0, Device.output stdout, ""⟩ ∧ traced = ⟨0, Device.output stdout, ""⟩
  stdout_flushed : ∀ program input last, world.prepare path? = .ok (some (program, input)) →
    (bufferedRun fuel? input stdout).Ends program last → run.stdout = flushedOutput last
  stderr_of_exit_one : run.exit = 1 → traced.stderr = run.stderr
  /-- If something goes wrong, the trace ends with what is said without it. -/
  stderr_of_exit_two : run.exit = 2 → ∀ program input count,
    world.prepare path? = .ok (some (program, input)) →
    ((bufferedRun fuel? input stdout).after program count).status ≠ .working →
      traced.stderr =
        (style program).text ((bufferedRun fuel? input stdout).events program count) ++ run.stderr
  stderr_of_exit_zero : run.exit = 0 → run.stderr = ""

section Agree

variable {world : World} {path? : Option String} {fuel? : Option UInt64} {stdout : ο}
  {style : Program → TraceStyle}

theorem agree_of_error {error : LoadError} {stderr : String}
    (hprepare : world.prepare path? = .error error) :
    Agree world path? fuel? stdout style ⟨1, Device.output stdout, stderr⟩
      ⟨1, Device.output stdout, stderr⟩ where
  exit_eq := rfl
  stdout_eq := rfl
  exit_le := Nat.le_succ 1
  exit_eq_one_iff := by simp [← World.exists_prepare_error_iff, hprepare]
  stdout_of_exit_one := fun _ => rfl
  exit_eq_two_iff := by simp [World.Fails, hprepare]
  of_noPath := by simp [← World.prepare_eq_ok_none_iff, hprepare]
  stdout_flushed := by simp [hprepare]
  stderr_of_exit_one := fun _ => rfl
  stderr_of_exit_two := by simp
  stderr_of_exit_zero := by simp

theorem agree_of_none (hprepare : world.prepare path? = .ok none) :
    Agree world path? fuel? stdout style ⟨0, Device.output stdout, ""⟩
      ⟨0, Device.output stdout, ""⟩ where
  exit_eq := rfl
  stdout_eq := rfl
  exit_le := Nat.zero_le 2
  exit_eq_one_iff := by simp [← World.exists_prepare_error_iff, hprepare]
  stdout_of_exit_one := fun _ => rfl
  exit_eq_two_iff := by simp [World.Fails, hprepare]
  of_noPath := fun _ => ⟨rfl, rfl⟩
  stdout_flushed := by simp [hprepare]
  stderr_of_exit_one := fun _ => rfl
  stderr_of_exit_two := by simp
  stderr_of_exit_zero := fun _ => rfl

section Loaded

variable {program : Program} {input : ByteStream}
  (hprepare : world.prepare path? = .ok (some (program, input)))

include hprepare

theorem not_unloadable : ¬world.Unloadable path? := by
  simp [← World.exists_prepare_error_iff, hprepare]

theorem not_noPath : ¬world.NoPath path? := by
  simp [← World.prepare_eq_ok_none_iff, hprepare]

theorem eq_of_prepare {program' : Program} {input' : ByteStream}
    (hprepare' : world.prepare path? = .ok (some (program', input'))) :
    program' = program ∧ input' = input := by
  simpa [hprepare, eq_comm] using hprepare'

variable {last : Run ByteStream (BufferedOutput ο)}

theorem fails_iff (hends : (bufferedRun fuel? input stdout).Ends program last) :
    world.Fails path? fuel? stdout ↔
      (∃ failure, last.status = .failed failure) ∨
        ∃ fault, last.workspace.output.flush.1 = .error fault := by
  constructor
  · rintro ⟨program', input', last', hprepare', hends', hwrong⟩
    obtain ⟨rfl, rfl⟩ := eq_of_prepare hprepare hprepare'
    rwa [hends.unique hends']
  · intro hwrong
    exact ⟨program, input, last, hprepare, hends, hwrong⟩

theorem flushedOutput_of_ends (hends : (bufferedRun fuel? input stdout).Ends program last)
    {program' : Program} {input' : ByteStream} {last' : Run ByteStream (BufferedOutput ο)}
    (hprepare' : world.prepare path? = .ok (some (program', input')))
    (hends' : (bufferedRun fuel? input' stdout).Ends program' last') :
    flushedOutput last = flushedOutput last' := by
  obtain ⟨rfl, rfl⟩ := eq_of_prepare hprepare hprepare'
  rw [hends.unique hends']

variable {count : Nat} {result : Except Failure Unit}
  (hlast : (bufferedRun fuel? input stdout).after program count = last)
  (hstatus : last.status = .ofResult result)

include hlast hstatus

theorem agree_of_ok (hok : endError? result last = none) (said : String) :
    Agree world path? fuel? stdout style ⟨0, flushedOutput last, ""⟩
      ⟨0, flushedOutput last, said⟩ := by
  have hends : (bufferedRun fuel? input stdout).Ends program last :=
    ⟨hstatus ▸ Status.ofResult_ne_working result, count, hlast⟩
  have hfine : ¬world.Fails path? fuel? stdout := by
    rw [fails_iff hprepare hends, ← exists_endError?_iff hstatus, hok]
    simp
  exact {
    exit_eq := rfl
    stdout_eq := rfl
    exit_le := Nat.zero_le 2
    exit_eq_one_iff := by simp [not_unloadable hprepare]
    stdout_of_exit_one := by simp
    exit_eq_two_iff := by simp [hfine]
    of_noPath := fun hnone => absurd hnone (not_noPath hprepare)
    stdout_flushed := fun _ _ _ => flushedOutput_of_ends hprepare hends
    stderr_of_exit_one := by simp
    stderr_of_exit_two := by simp
    stderr_of_exit_zero := fun _ => rfl }

theorem agree_of_endError {message : String} (herror : endError? result last = some message) :
    Agree world path? fuel? stdout style
      ⟨2, flushedOutput last, errorLine message⟩
      ⟨2, flushedOutput last,
        (style program).text ((bufferedRun fuel? input stdout).events program count) ++
          errorLine message⟩ := by
  have hends : (bufferedRun fuel? input stdout).Ends program last :=
    ⟨hstatus ▸ Status.ofResult_ne_working result, count, hlast⟩
  have hfails : world.Fails path? fuel? stdout := by
    rw [fails_iff hprepare hends, ← exists_endError?_iff hstatus]
    exact ⟨message, herror⟩
  exact {
    exit_eq := rfl
    stdout_eq := rfl
    exit_le := Nat.le_refl 2
    exit_eq_one_iff := by simp [not_unloadable hprepare]
    stdout_of_exit_one := by simp
    exit_eq_two_iff := by simp [hfails]
    of_noPath := fun hnone => absurd hnone (not_noPath hprepare)
    stdout_flushed := fun _ _ _ => flushedOutput_of_ends hprepare hends
    stderr_of_exit_one := by simp
    stderr_of_exit_two := by
      intro _ program' input' count' hprepare' hended'
      obtain ⟨rfl, rfl⟩ := eq_of_prepare hprepare hprepare'
      rw [Run.events_eq_of_ended (hlast ▸ hends.1) hended']
    stderr_of_exit_zero := by simp }

end Loaded

theorem agree_of_answers {program : Program} {input : ByteStream} {listing : Listing}
    {run traced : Response} (hprepare : world.prepare path? = .ok (some (program, input)))
    (hserializer : ∀ bank : Bank, ∃ text, listing.serializer.indented bank.datum = .ok text)
    (hrun : (Task.running
      (.start program fuel? input stdout (fun _ _ => ()) ())).Answers run)
    (htraced : (Task.tracing listing
      (.start program fuel? input stdout (style program).record #[])).Answers traced) :
    Agree world path? fuel? stdout style run traced := by
  obtain ⟨last, hended, count, hlast⟩ := exists_answers_running_iff.mp ⟨run, hrun⟩
  obtain ⟨result, hstatus⟩ := Status.exists_ofResult hended
  obtain rfl := (answers_running hlast hstatus).unique hrun
  cases hwrong : endError? result last with
  | none =>
      obtain ⟨shown, hshown⟩ := answers_tracing_of_ok hlast hstatus hwrong (hserializer _)
      obtain rfl := hshown.unique htraced
      exact agree_of_ok hprepare hlast hstatus hwrong _
  | some message =>
      obtain rfl := (answers_tracing_of_error hlast hstatus hwrong).unique htraced
      exact agree_of_endError hprepare hlast hstatus hwrong

end Agree

/-! ## Devices that take everything -/

/-- The run of the machine for a program with an input, on a buffer of unlimited room. -/
def plainRun (fuel? : Option UInt64) (input : ByteStream) : Run ByteStream OutputBuffer :=
  Machine.start { limit := fuel?.map UInt64.toNat } input {}

/-- What a command answers when the device takes everything: the exit status tells whether the run
has failed, and the standard output is what the run has written. -/
structure TellsOfRun (world : World) (path? : Option String) (fuel? : Option UInt64) (stdout : ο)
    (response : Response) : Prop where
  exit_eq_two_iff : response.exit = 2 ↔ ∃ program input last failure,
    world.prepare path? = .ok (some (program, input)) ∧
      (plainRun fuel? input).Ends program last ∧ last.status = .failed failure
  stdout_eq : ∀ program input last, world.prepare path? = .ok (some (program, input)) →
    (plainRun fuel? input).Ends program last →
      response.stdout = Device.output stdout ++ last.workspace.output.written

section Reliable

variable {good : ο → Prop} (hreliable : Device.Reliable good) {stdout : ο} (hgood : good stdout)
  {world : World} {path? : Option String} {fuel? : Option UInt64} {program : Program}
  {input : ByteStream}

include hreliable hgood

theorem sameOnBuffer_plainRun (program : Program) (fuel? : Option UInt64) (input : ByteStream)
    (count : Nat) :
    Run.SameOnBuffer stdout ((bufferedRun fuel? input stdout).after program count)
      ((plainRun fuel? input).after program count) :=
  Run.sameOnBuffer _ input hreliable hgood count

theorem flush_after (program : Program) (fuel? : Option UInt64) (input : ByteStream)
    (count : Nat) :
    ((bufferedRun fuel? input stdout).after program count).workspace.output.flush.1 = .ok () ∧
      flushedOutput ((bufferedRun fuel? input stdout).after program count) =
        Device.output stdout ++
          ((plainRun fuel? input).after program count).workspace.output.written := by
  have hstart : good (bufferedRun fuel? input stdout).workspace.output.device := hgood
  have hstill := (Run.good_after hreliable program hstart count).1
  obtain ⟨output, hflush, houtput⟩ := BufferedOutput.exists_flush hreliable hstill
  have hsame := sameOnBuffer_plainRun hreliable hgood program fuel? input count
  rw [flushedOutput, hflush, houtput, hsame.written_eq]
  exact ⟨rfl, rfl⟩

theorem ends_iff :
    (∃ last, (bufferedRun fuel? input stdout).Ends program last) ↔
      ∃ last, (plainRun fuel? input).Ends program last := by
  constructor
  · rintro ⟨_, hended, count, rfl⟩
    have hsame := sameOnBuffer_plainRun hreliable hgood program fuel? input count
    exact ⟨_, Run.ends_of_after (hsame.status_eq ▸ hended)⟩
  · rintro ⟨_, hended, count, rfl⟩
    have hsame := sameOnBuffer_plainRun hreliable hgood program fuel? input count
    exact ⟨_, Run.ends_of_after (hsame.status_eq ▸ hended)⟩

theorem Agree.tellsOfRun {style : Program → TraceStyle} {run traced : Response}
    (hagree : Agree world path? fuel? stdout style run traced) :
    TellsOfRun world path? fuel? stdout run where
  exit_eq_two_iff := by
    rw [hagree.exit_eq_two_iff]
    constructor
    · rintro ⟨program, input, _, hprepare, ⟨hended, count, rfl⟩, hwrong⟩
      have hsame := sameOnBuffer_plainRun hreliable hgood program fuel? input count
      have hflush := (flush_after hreliable hgood program fuel? input count).1
      cases hwrong with
      | inl hfailed =>
          obtain ⟨failure, hfailed⟩ := hfailed
          exact ⟨program, input, _, failure, hprepare,
            Run.ends_of_after (hsame.status_eq ▸ hended), hsame.status_eq ▸ hfailed⟩
      | inr hfault =>
          obtain ⟨fault, hfault⟩ := hfault
          cases hflush.symm.trans hfault
    · rintro ⟨program, input, _, failure, hprepare, ⟨hended, count, rfl⟩, hfailed⟩
      have hsame := sameOnBuffer_plainRun hreliable hgood program fuel? input count
      exact ⟨program, input, _, hprepare, Run.ends_of_after (hsame.status_eq ▸ hended),
        .inl ⟨failure, hsame.status_eq ▸ hfailed⟩⟩
  stdout_eq := by
    rintro program input _ hprepare ⟨hended, count, rfl⟩
    have hsame := sameOnBuffer_plainRun hreliable hgood program fuel? input count
    rw [hagree.stdout_flushed program input _ hprepare
      (Run.ends_of_after (hsame.status_eq ▸ hended))]
    exact (flush_after hreliable hgood program fuel? input count).2

end Reliable

/-! ## The two commands -/

/-- A program that is traced does what it does when it is run. -/
structure TracesRun (world : World) (path? : Option String) (fuel? : Option UInt64) (stdout : ο)
    (style : Program → TraceStyle) (run traced : Task ο) : Prop where
  /-- There is an answer unless a run of the machine goes on for ever. -/
  answers_iff_ends : (∃ response, run.Answers response) ↔
    ∀ program input, world.prepare path? = .ok (some (program, input)) →
      ∃ last, (bufferedRun fuel? input stdout).Ends program last
  answers_iff : (∃ response, traced.Answers response) ↔ ∃ response, run.Answers response
  /-- Also while there is no answer yet, the same bytes have been put out. -/
  output_eq : ∀ count, (traced.advance count).output = (run.advance count).output
  agree : ∀ response response', run.Answers response → traced.Answers response' →
    Agree world path? fuel? stdout style response response'
  /-- To a device that takes everything, all goes as in a run on a buffer of unlimited room. -/
  reliable : ∀ good, Device.Reliable good → good stdout →
    ((∃ response, run.Answers response) ↔
      ∀ program input, world.prepare path? = .ok (some (program, input)) →
        ∃ last, (plainRun fuel? input).Ends program last) ∧
    ∀ response, run.Answers response → TellsOfRun world path? fuel? stdout response

section Commands

variable {world : World} {path? : Option String} {fuel? : Option UInt64} {stdout : ο}
  {style : Program → TraceStyle} {run traced : Task ο}

/-- For a device that takes everything, nothing has to be shown but the agreement. -/
theorem tracesRun_of_agree
    (hends : (∃ response, run.Answers response) ↔
      ∀ program input, world.prepare path? = .ok (some (program, input)) →
        ∃ last, (bufferedRun fuel? input stdout).Ends program last)
    (hanswers : (∃ response, traced.Answers response) ↔ ∃ response, run.Answers response)
    (houtput : ∀ count, (traced.advance count).output = (run.advance count).output)
    (hagree : ∀ response response', run.Answers response → traced.Answers response' →
      Agree world path? fuel? stdout style response response') :
    TracesRun world path? fuel? stdout style run traced where
  answers_iff_ends := hends
  answers_iff := hanswers
  output_eq := houtput
  agree := hagree
  reliable good hreliable hgood := by
    simp only [← ends_iff hreliable hgood]
    refine ⟨hends, ?_⟩
    intro response hresponse
    obtain ⟨response', hresponse'⟩ := hanswers.mpr ⟨response, hresponse⟩
    exact (hagree response response' hresponse hresponse').tellsOfRun hreliable hgood

theorem tracesRun_of_answered {response : Response}
    (hprepare : ∀ program input, world.prepare path? ≠ .ok (some (program, input)))
    (hagree : Agree world path? fuel? stdout style response response) :
    TracesRun world path? fuel? stdout style (.answered response) (.answered response) := by
  refine tracesRun_of_agree ?_ Iff.rfl (fun _ => rfl) ?_
  · simp [Task.answers_answered, hprepare]
  · intro first second hfirst hsecond
    obtain rfl := Task.answers_answered.mp hfirst
    obtain rfl := Task.answers_answered.mp hsecond
    exact hagree

/-- **To trace a program changes nothing but the standard error.** -/
theorem trace_agrees_with_run [Logarithm] (serializer : Serializer) (world : World) (stdout : ο)
    (values traceValues rest : Values)
    (hserializer : ∀ bank : Bank, ∃ text, serializer.indented bank.datum = .ok text)
    (hpath : traceValues.programPath? = values.programPath?)
    (hfuel : traceValues.fuel? = values.fuel?) :
    TracesRun world values.programPath? values.fuel? stdout
      (fun program => .ofProgram program (.ofCount traceValues.verbose.toNat)
        (.choose (world.colours (.ofValues traceValues))))
      (Task.ofMatches serializer world stdout ⟨some ("run", values), rest⟩)
      (Task.ofMatches serializer world stdout ⟨some ("trace", traceValues), rest⟩) := by
  simp only [Task.ofMatches, Task.run, Task.trace, RunArguments.ofValues, TraceArguments.ofValues,
    hpath, hfuel]
  rcases hprepare : world.prepare values.programPath? with error | _ | ⟨program, input⟩
  · exact tracesRun_of_answered (by simp [hprepare]) (agree_of_error hprepare)
  · exact tracesRun_of_answered (by simp [hprepare]) (agree_of_none hprepare)
  · refine tracesRun_of_agree ?_ ?_ ?_ ?_
    · simp [exists_answers_running_iff, hprepare]
    · simp only [exists_answers_running_iff, exists_answers_tracing_iff]
    · intro count
      simp only [Task.advance, Task.output, Execution.run_advance_start]
    · intro response response' hrun htraced
      exact agree_of_answers hprepare hserializer hrun htraced

/-- A program whose path is on the standard input prints `5` and then fails at a loop
close. -/
theorem trace_agrees_with_run_of_unmatched :
    let world : World := {
      read := fun _ => .ok [0x35, 0x23, 0x5C]
      stdin := { bytes := [0x20, 0x70] } }
    let start := @Task.ofMatches OutputBuffer _ Logarithm.grid .standard world {}
    let said := "error: loop close at 2 has no open loop\n"
    (start ⟨some ("run", {}), {}⟩).Answers ⟨2, [0x35], said⟩ ∧
      (∃ stderr, (start ⟨some ("trace", { verbose := 2 }), {}⟩).Answers ⟨2, [0x35], stderr⟩) ∧
      TellsOfRun world none none ({} : OutputBuffer) ⟨2, [0x35], said⟩ := by
  intro world start said
  have htraces := @trace_agrees_with_run OutputBuffer _ Logarithm.grid .standard world {} {}
    { verbose := 2 } {} (fun bank => ⟨_, rfl⟩) rfl rfl
  have hrun : (start ⟨some ("run", {}), {}⟩).Answers ⟨2, [0x35], said⟩ :=
    Task.answers_iff.mpr ⟨3, by decide +kernel⟩
  obtain ⟨⟨exit, stdout, stderr⟩, htraced⟩ := htraces.answers_iff.mpr ⟨_, hrun⟩
  have hagree := htraces.agree _ _ hrun htraced
  obtain rfl : exit = 2 := hagree.exit_eq
  obtain rfl : stdout = [0x35] := hagree.stdout_eq
  exact ⟨hrun, ⟨stderr, htraced⟩, (htraces.reliable _ OutputBuffer.reliable rfl).2 _ hrun⟩

end Commands

end LetterMachine.CommandLine
