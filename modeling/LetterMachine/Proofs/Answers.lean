import LetterMachine.CommandLine.Session
import LetterMachine.Proofs.Transitions
import Mathlib.Data.List.Basic
import Mathlib.Logic.Function.Iterate

/-!
# How commands are answered

A command that runs a program looks for it first, and without a program it is answered at once.
Otherwise one run of the machine is carried on, a number of instructions at a time, and there is an
answer as soon as that run has ended: its output is flushed, and what is said then depends on how
the run has ended and on whether the flush has succeeded.  Neither the number of instructions nor
what is made of the events has any influence on the run.
-/

namespace LetterMachine

/-- The lines that show events, each of them ended. -/
def TraceStyle.text (style : TraceStyle) (events : List Event) : String :=
  String.join ((events.filterMap style.line?).map (· ++ "\n"))

theorem TraceStyle.foldl_record (style : TraceStyle) (events : List Event)
    (lines : Array String) :
    (events.foldl style.record lines).toList = lines.toList ++ events.filterMap style.line? := by
  induction events generalizing lines with
  | nil => simp
  | cons event events ih =>
      rw [List.foldl_cons, ih, record]
      cases hline : style.line? event <;> simp [hline]

/-- The status of a run that has ended. -/
def Status.ofResult : Except Failure Unit → Status
  | .ok () => .halted
  | .error failure => .failed failure

theorem Status.ofResult_ne_working (result : Except Failure Unit) : ofResult result ≠ working := by
  rcases result with _ | _ <;> nofun

theorem Status.exists_ofResult {status : Status} (hended : status ≠ .working) :
    ∃ result, status = .ofResult result := by
  cases status with
  | working => exact absurd rfl hended
  | halted => exact ⟨.ok (), rfl⟩
  | failed failure => exact ⟨.error failure, rfl⟩

namespace CommandLine

/-! ## The program of a command -/

namespace World

/-- There is a path, among the arguments or on the standard input, and behind it the input for the
program. -/
inductive FindsPath (world : World) : Option String → String → ByteStream → Prop where
  | given (path : String) : FindsPath world (some path) path world.stdin
  | read {path : String} {input : ByteStream}
      (hread : readProgramPath world.stdin = (.ok (some path), input)) :
      FindsPath world none path input

/-- No path is given, and there is none on the standard input. -/
def NoPath (world : World) (path? : Option String) : Prop :=
  path? = none ∧ world.stdin.readToken.1 = .ok none

/-- The program cannot be loaded: the file at its path cannot be read, or no path can be read. -/
inductive Unloadable (world : World) (path? : Option String) : Prop where
  | file {path : String} {input : ByteStream} {reason : ReadError}
      (hfinds : world.FindsPath path? path input) (hread : world.read path = .error reason)
  | path {fault : Fault} (hnone : path? = none)
      (hread : world.stdin.readToken.1 = .error fault)

variable {world : World} {path? : Option String}

theorem prepare_of_findsPath {path : String} {input : ByteStream}
    (hfinds : world.FindsPath path? path input) :
    world.prepare path? = (world.load path).map fun program => some (program, input) := by
  cases hfinds with
  | given path => rfl
  | read hread => simp only [prepare, hread]

theorem prepare_of_noPath (hnone : world.NoPath path?) : world.prepare path? = .ok none := by
  obtain ⟨rfl, htoken⟩ := hnone
  rcases hread : world.stdin.readToken with ⟨token?, rest⟩
  simp_all [prepare, readProgramPath]

theorem prepare_of_broken {fault : Fault} (hread : world.stdin.readToken.1 = .error fault) :
    world.prepare none = .error (.noPath fault) := by
  rcases htoken : world.stdin.readToken with ⟨token?, rest⟩
  simp_all [prepare, readProgramPath]

theorem exists_prepare_of_unloadable (hunloadable : world.Unloadable path?) :
    ∃ error, world.prepare path? = .error error := by
  cases hunloadable with
  | file hfinds hread =>
      rw [prepare_of_findsPath hfinds, load, hread]
      exact ⟨_, rfl⟩
  | path hnone hread =>
      subst hnone
      exact ⟨_, prepare_of_broken hread⟩

/-- The search for a program ends in one of four ways. -/
theorem findsPath_or (world : World) (path? : Option String) :
    (∃ path input, world.FindsPath path? path input) ∨ world.NoPath path? ∨
      (path? = none ∧ ∃ fault, world.stdin.readToken.1 = .error fault) := by
  cases path? with
  | some path => exact .inl ⟨path, _, .given path⟩
  | none =>
      rcases htoken : world.stdin.readToken with ⟨_ | token?, rest⟩
      · exact .inr (.inr ⟨rfl, _, rfl⟩)
      · cases token? with
        | none => exact .inr (.inl ⟨rfl, congrArg Prod.fst htoken⟩)
        | some token =>
            left
            refine ⟨.ofList (Utf8.decode token), rest, .read ?_⟩
            rw [readProgramPath, htoken]
            rfl

theorem exists_prepare_error_iff :
    (∃ error, world.prepare path? = .error error) ↔ world.Unloadable path? := by
  refine ⟨?_, exists_prepare_of_unloadable⟩
  rintro ⟨error, herror⟩
  obtain ⟨path, input, hfinds⟩ | hnone | ⟨hnone, fault, hread⟩ := world.findsPath_or path?
  · rw [prepare_of_findsPath hfinds, load] at herror
    cases hread : world.read path with
    | ok bytes => simp [hread, Except.map] at herror
    | error reason => exact .file hfinds hread
  · simp [prepare_of_noPath hnone] at herror
  · exact .path hnone hread

theorem prepare_eq_ok_none_iff : world.prepare path? = .ok none ↔ world.NoPath path? := by
  refine ⟨?_, prepare_of_noPath⟩
  intro hnone
  obtain ⟨path, input, hfinds⟩ | hnone | hbroken := world.findsPath_or path?
  · rw [prepare_of_findsPath hfinds] at hnone
    cases hload : world.load path <;> simp [hload, Except.map] at hnone
  · exact hnone
  · obtain ⟨rfl, fault, hread⟩ := hbroken
    simp [prepare_of_broken hread] at hnone

end World

/-! ## Executions -/

section Executions

variable {ο σ : Type} [Device ο]

/-- The run of the machine for a program with an input, whose output goes to a device. -/
def bufferedRun (fuel? : Option UInt64) (input : ByteStream) (stdout : ο) :
    Run ByteStream (BufferedOutput ο) :=
  Machine.start { limit := fuel?.map UInt64.toNat } input (.ofDevice stdout)

namespace Execution

variable {program : Program} {fuel? : Option UInt64} {input : ByteStream} {stdout : ο}
  {see : σ → Event → σ} {seen : σ}

theorem advance_eq (count : Nat) (execution : Execution ο σ) :
    execution.advance count =
      { execution with
        run := execution.run.after execution.program count
        seen := (execution.run.events execution.program count).foldl execution.see
          execution.seen } := by
  rw [advance, Run.follow_eq]

/-- Carrying an execution on twice is carrying it on by both counts together. -/
theorem advance_advance (first second : Nat) (execution : Execution ο σ) :
    (execution.advance first).advance second = execution.advance (first + second) := by
  simp only [advance_eq, Run.after_add, Run.events_add, List.foldl_append]

theorem advance_of_ended {execution : Execution ο σ} (hended : execution.run.status ≠ .working)
    (count : Nat) : execution.advance count = execution := by
  simp [advance_eq, Run.after_of_ended hended, Run.events_of_ended hended]

omit [Device ο] in
theorem result?_eq_some_iff {execution : Execution ο σ} {result : Except Failure Unit} :
    execution.result? = some result ↔ execution.run.status = .ofResult result := by
  rw [result?]
  cases execution.run.status <;> rcases result with _ | _ <;> simp [Status.ofResult]

/-- An execution carries on the run of the machine, whatever is made of its events. -/
theorem run_advance_start (count : Nat) :
    ((start program fuel? input stdout see seen).advance count).run =
      (bufferedRun fuel? input stdout).after program count := by
  rw [advance_eq]
  rfl

theorem seen_advance_start (count : Nat) :
    ((start program fuel? input stdout see seen).advance count).seen =
      ((bufferedRun fuel? input stdout).events program count).foldl see seen := by
  rw [advance_eq]
  rfl

theorem traceText_advance_start {style : TraceStyle} (count : Nat) :
    ((start program fuel? input stdout style.record #[]).advance count).traceText =
      style.text ((bufferedRun fuel? input stdout).events program count) := by
  rw [traceText, seen_advance_start, TraceStyle.foldl_record]
  rfl

end Execution

end Executions

/-! ## Answers -/

namespace Task

variable {ο : Type} [Device ο] {task : Task ο} {response : Response}

theorem advance_advance (first second : Nat) (task : Task ο) :
    (task.advance first).advance second = task.advance (first + second) := by
  cases task with
  | answered response => rfl
  | running execution => exact congrArg running (execution.advance_advance first second)
  | tracing listing execution =>
      exact congrArg (tracing listing) (execution.advance_advance first second)

theorem advance_zero (task : Task ο) : task.advance 0 = task := by
  cases task <;> simp [advance, Execution.advance, Run.follow]

theorem iterate_advance (size rounds : Nat) (task : Task ο) :
    (Task.advance size)^[rounds] task = task.advance (rounds * size) := by
  induction rounds with
  | zero => rw [Nat.zero_mul, advance_zero, Function.iterate_zero, id]
  | succ rounds ih => rw [Function.iterate_succ_apply', ih, advance_advance, Nat.succ_mul]

/-- A task that is answered stays so. -/
theorem response?_advance (hanswer : task.response? = some response) (count : Nat) :
    (task.advance count).response? = some response := by
  cases task with
  | answered given => exact hanswer
  | running execution | tracing _ execution =>
      obtain ⟨result, hresult, -⟩ := Option.map_eq_some_iff.mp hanswer
      have hended : execution.run.status ≠ .working :=
        Execution.result?_eq_some_iff.mp hresult ▸ Status.ofResult_ne_working result
      rw [advance, Execution.advance_of_ended hended]
      exact hanswer

/-- A task comes to an answer when it is carried on, some number of instructions at a time. -/
def Answers (task : Task ο) (response : Response) : Prop :=
  ∃ rounds, ((Task.advance 65536)^[rounds] task).response? = some response

/-- How many instructions are carried on at a time has no influence on the answer. -/
theorem answers_iff :
    task.Answers response ↔ ∃ count, (task.advance count).response? = some response := by
  simp only [Answers, iterate_advance]
  constructor
  · rintro ⟨rounds, hanswer⟩
    exact ⟨rounds * 65536, hanswer⟩
  · rintro ⟨count, hanswer⟩
    have hle : count ≤ count * 65536 := Nat.le_mul_of_pos_right count (Nat.succ_pos 65535)
    obtain ⟨further, hfurther⟩ := Nat.exists_eq_add_of_le hle
    refine ⟨count, ?_⟩
    rw [hfurther, ← advance_advance]
    exact response?_advance hanswer further

theorem Answers.unique {response' : Response} (hanswers : task.Answers response)
    (hanswers' : task.Answers response') : response = response' := by
  obtain ⟨first, hfirst⟩ := answers_iff.mp hanswers
  obtain ⟨second, hsecond⟩ := answers_iff.mp hanswers'
  have htogether := response?_advance hfirst second
  rw [advance_advance, Nat.add_comm, ← advance_advance] at htogether
  exact Option.some.inj (htogether.symm.trans (response?_advance hsecond first))

theorem answers_answered {given : Response} :
    (Task.answered given : Task ο).Answers response ↔ given = response := by
  simp [answers_iff, advance, response?]

end Task

/-! ## The end of a run -/

section End

variable {ο : Type} [Device ο]

/-- The bytes that have come out when the output of a run has been flushed. -/
def flushedOutput (last : Run ByteStream (BufferedOutput ο)) : List UInt8 :=
  last.workspace.output.flush.2.output

/-- What is wrong in the end: the failure of the run, or else that of the flush. -/
def endError? (result : Except Failure Unit) (last : Run ByteStream (BufferedOutput ο)) :
    Option String :=
  match result, last.workspace.output.flush.1 with
  | .error failure, _ => some failure.message
  | .ok (), .error fault => some ("failed to write output: " ++ fault.message)
  | .ok (), .ok () => none

theorem exists_endError?_iff {result : Except Failure Unit}
    {last : Run ByteStream (BufferedOutput ο)} (hstatus : last.status = .ofResult result) :
    (∃ message, endError? result last = some message) ↔
      (∃ failure, last.status = .failed failure) ∨
        ∃ fault, last.workspace.output.flush.1 = .error fault := by
  unfold endError?
  rw [hstatus]
  cases hflush : last.workspace.output.flush.1 <;> rcases result with failure | ⟨⟩ <;>
    simp [Status.ofResult]

namespace Execution

/-- What is said without a trace: what is wrong, if anything is. -/
theorem finishRun_eq (execution : Execution ο Unit) (result : Except Failure Unit) :
    execution.finishRun result =
      match endError? result execution.run with
      | some message => ⟨2, flushedOutput execution.run, errorLine message⟩
      | none => ⟨0, flushedOutput execution.run, ""⟩ := by
  unfold endError?
  rw [finishRun, flushedOutput]
  rcases execution.run.workspace.output.flush with ⟨_ | _, output⟩ <;>
    rcases result with failure | ⟨⟩ <;> rfl

variable {listing : Listing} {execution : Execution ο (Array String)}
  {result : Except Failure Unit}

/-- What is wrong is said behind the trace. -/
theorem finishTrace_of_error {message : String}
    (herror : endError? result execution.run = some message) :
    execution.finishTrace listing result =
      ⟨2, flushedOutput execution.run, execution.traceText ++ errorLine message⟩ := by
  unfold endError? at herror
  rw [finishTrace, flushedOutput]
  rcases hflush : execution.run.workspace.output.flush with ⟨_ | _, output⟩ <;>
    rcases result with failure | ⟨⟩ <;> simp_all

/-- If nothing is wrong, the registers are shown behind the trace, or nothing more. -/
theorem finishTrace_of_ok (hok : endError? result execution.run = none)
    (hserializer : ∃ text,
      listing.serializer.indented execution.run.workspace.bank.datum = .ok text) :
    ∃ shown, execution.finishTrace listing result =
      ⟨0, flushedOutput execution.run, execution.traceText ++ shown⟩ := by
  obtain ⟨text, htext⟩ := hserializer
  unfold endError? at hok
  rw [finishTrace, flushedOutput]
  rcases hflush : execution.run.workspace.output.flush with ⟨flushed, output⟩
  rw [hflush] at hok
  rcases result with failure | ⟨⟩
  · cases hok
  · rcases flushed with fault | ⟨⟩
    · cases hok
    · cases hoff : listing.isOff with
      | true => exact ⟨"", by simp⟩
      | false =>
          refine ⟨listing.palette.faint ++ "---" ++ listing.palette.reset ++ "\n" ++ text ++ "\n",
            ?_⟩
          simp [htext, String.append_assoc]

end Execution

variable {program : Program} {fuel? : Option UInt64} {input : ByteStream} {stdout : ο}

/-- An execution has a result in the end if and only if the run of the machine comes to an end. -/
theorem Execution.exists_result?_iff {σ : Type} (see : σ → Event → σ) (seen : σ) :
    (∃ count result,
        ((start program fuel? input stdout see seen).advance count).result? = some result) ↔
      ∃ last, (bufferedRun fuel? input stdout).Ends program last := by
  simp only [result?_eq_some_iff, run_advance_start]
  constructor
  · rintro ⟨count, result, hstatus⟩
    exact ⟨_, Run.ends_of_after (hstatus ▸ Status.ofResult_ne_working result)⟩
  · rintro ⟨last, hended, count, rfl⟩
    exact ⟨count, Status.exists_ofResult hended⟩

/-- What is made of a result has no influence on whether there is one. -/
theorem exists_map_eq_some_iff {α β : Type} {results : Nat → Option α} {finish : Nat → α → β} :
    (∃ response count, (results count).map (finish count) = some response) ↔
      ∃ count result, results count = some result := by
  constructor
  · rintro ⟨response, count, hresponse⟩
    obtain ⟨result, hresult, -⟩ := Option.map_eq_some_iff.mp hresponse
    exact ⟨count, result, hresult⟩
  · rintro ⟨count, result, hresult⟩
    exact ⟨_, count, Option.map_eq_some_iff.mpr ⟨result, hresult, rfl⟩⟩

theorem exists_answers_running_iff :
    (∃ response, (Task.running
        (.start program fuel? input stdout (fun _ _ => ()) ())).Answers response) ↔
      ∃ last, (bufferedRun fuel? input stdout).Ends program last := by
  rw [← Execution.exists_result?_iff (fun _ _ => ()) ()]
  simp only [Task.answers_iff, Task.advance, Task.response?]
  exact exists_map_eq_some_iff

theorem exists_answers_tracing_iff {listing : Listing} {style : TraceStyle} :
    (∃ response, (Task.tracing listing
        (.start program fuel? input stdout style.record #[])).Answers response) ↔
      ∃ last, (bufferedRun fuel? input stdout).Ends program last := by
  rw [← Execution.exists_result?_iff style.record #[]]
  simp only [Task.answers_iff, Task.advance, Task.response?]
  exact exists_map_eq_some_iff

variable {count : Nat} {last : Run ByteStream (BufferedOutput ο)} {result : Except Failure Unit}
  (hlast : (bufferedRun fuel? input stdout).after program count = last)
  (hstatus : last.status = .ofResult result)

include hlast hstatus

theorem answers_running :
    (Task.running (.start program fuel? input stdout (fun _ _ => ()) ())).Answers
      (match endError? result last with
      | some message => ⟨2, flushedOutput last, errorLine message⟩
      | none => ⟨0, flushedOutput last, ""⟩) := by
  refine Task.answers_iff.mpr ⟨count, Option.map_eq_some_iff.mpr ⟨result, ?_, ?_⟩⟩
  · rw [Execution.result?_eq_some_iff, Execution.run_advance_start, hlast, hstatus]
  · rw [Execution.finishRun_eq, Execution.run_advance_start, hlast]

variable {listing : Listing} {style : TraceStyle}

theorem answers_tracing_of_error {message : String}
    (herror : endError? result last = some message) :
    (Task.tracing listing (.start program fuel? input stdout style.record #[])).Answers
      ⟨2, flushedOutput last,
        style.text ((bufferedRun fuel? input stdout).events program count) ++
          errorLine message⟩ := by
  have hrun : ((Execution.start program fuel? input stdout style.record #[]).advance count).run =
      last := by
    rw [Execution.run_advance_start, hlast]
  rw [← hrun] at herror
  refine Task.answers_iff.mpr ⟨count, Option.map_eq_some_iff.mpr ⟨result, ?_, ?_⟩⟩
  · rw [Execution.result?_eq_some_iff, hrun, hstatus]
  · rw [Execution.finishTrace_of_error herror, hrun, Execution.traceText_advance_start]

theorem answers_tracing_of_ok (hok : endError? result last = none)
    (hserializer : ∃ text, listing.serializer.indented last.workspace.bank.datum = .ok text) :
    ∃ shown, (Task.tracing listing
        (.start program fuel? input stdout style.record #[])).Answers
      ⟨0, flushedOutput last,
        style.text ((bufferedRun fuel? input stdout).events program count) ++ shown⟩ := by
  have hrun : ((Execution.start program fuel? input stdout style.record #[]).advance count).run =
      last := by
    rw [Execution.run_advance_start, hlast]
  rw [← hrun] at hok hserializer
  obtain ⟨shown, hshown⟩ := Execution.finishTrace_of_ok hok hserializer
  refine ⟨shown, Task.answers_iff.mpr ⟨count, Option.map_eq_some_iff.mpr ⟨result, ?_, ?_⟩⟩⟩
  · rw [Execution.result?_eq_some_iff, hrun, hstatus]
  · rw [hshown, hrun, Execution.traceText_advance_start]

end End

end CommandLine

end LetterMachine
