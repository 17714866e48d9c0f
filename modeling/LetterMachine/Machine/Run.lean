import LetterMachine.Machine.Control
import LetterMachine.Machine.Workspace
import LetterMachine.Program

/-!
# Runs

A machine keeps its registers from one run of a program to the next.  A run starts at the beginning
of the program with no loop open, and goes on one instruction at a time until it comes to the end,
fails, or has used up its limit of steps.  The limit is looked at before each instruction, and an
instruction that is passed over counts as a step.
-/

namespace LetterMachine

/-- What stays between the runs of a machine, and where the last of them ended. -/
structure Machine where
  bank : Bank := .empty
  active : Letter := default
  limit : Option Nat := none
  control : Control := {}

inductive Status where
  | working
  | halted
  | failed (failure : Failure)
  deriving DecidableEq, Repr

/-- A run of a program. -/
structure Run (ι ο : Type) where
  workspace : Workspace ι ο
  control : Control
  limit : Option Nat
  status : Status

variable {ι ο : Type}

/-- A run from the beginning of a program. -/
def Machine.start (machine : Machine) (input : ι) (output : ο) : Run ι ο where
  workspace := ⟨machine.bank, machine.active, input, output⟩
  control := {}
  limit := machine.limit
  status := .working

namespace Run

/-- The machine as the run has left it. -/
def machine (run : Run ι ο) : Machine where
  bank := run.workspace.bank
  active := run.workspace.active
  limit := run.limit
  control := run.control

def isWorking (run : Run ι ο) : Bool :=
  run.status == .working

/-- The limit of steps, once it is used up. -/
def exhausted? (run : Run ι ο) : Option Nat :=
  run.limit.filter (· ≤ run.control.steps)

def fail (run : Run ι ο) (failure : Failure) : Run ι ο :=
  { run with status := .failed failure }

/-- Executes a loop open: takes the condition, and enters the loop or passes over its body. -/
def openLoop (run : Run ι ο) : Run ι ο × List Event :=
  let (condition, workspace) := run.workspace.takeCondition
  let reported := workspace.report workspace.active
  let position := run.control.position
  if condition then
    ({ run with workspace := workspace, control := run.control.enter },
      [reported, .enter position (run.control.depth + 1)])
  else
    ({ run with workspace := workspace, control := run.control.pass }, [reported, .pass position])

/-- Executes a loop close: goes back to the loop open, which looks at its condition again. -/
def closeLoop (run : Run ι ο) : Run ι ο × List Event :=
  let position := run.control.position
  match run.control.back? with
  | some control => ({ run with control := control }, [.back position control.position])
  | none => (run.fail (.unmatchedLoopClose position), [])

def leaveLoop (run : Run ι ο) : Run ι ο × List Event :=
  ({ run with control := run.control.leave }, [.leave run.control.position])

/-- Executes an instruction that has nothing to do with loops.  After a mishap the run stays at the
instruction. -/
def executePlain [Source ι] [Output ο] (run : Run ι ο) (instruction : Instruction) :
    Run ι ο × List Event :=
  let (workspace, mishap?) := run.workspace.execute instruction
  let after := { run with workspace := workspace }
  match mishap? with
  | none =>
    ({ after with control := run.control.advance }, run.workspace.reports workspace instruction)
  | some mishap => (after.fail (mishap.failureAt run.control.position), [])

def execute [Source ι] [Output ο] (run : Run ι ο) (instruction : Instruction) :
    Run ι ο × List Event :=
  match instruction with
  | .loopOpen => run.openLoop
  | .loopClose => run.closeLoop
  | .leave => run.leaveLoop
  | _ => run.executePlain instruction

/-- Executes an instruction or passes over it, according to the mode of the run. -/
def step [Source ι] [Output ο] (run : Run ι ο) (instruction : Instruction) :
    Run ι ο × List Event :=
  let control := run.control
  let counted := { run with control := control.countStep }
  match control.mode with
  | .skipping =>
    ({ counted with control := counted.control.skip instruction }, control.skipEvents instruction)
  | .running =>
    let (after, events) := counted.execute instruction
    (after, .instruction control.position instruction run.workspace.active :: events)

/-- Carries a run on by one instruction, or ends it.  A run that has ended stays as it is. -/
def next [Source ι] [Output ο] (program : Program) (run : Run ι ο) : Run ι ο × List Event :=
  if run.isWorking then
    match program.get? run.control.position with
    | none => ({ run with status := .halted }, [.halt run.control.steps])
    | some instruction =>
      match run.exhausted? with
      | some limit => (run.fail (.stepsExhausted limit), [])
      | none => run.step instruction
  else
    (run, [])

/-- Carries a run on by at most `count` instructions, and gathers what `see` makes of its events. -/
def follow [Source ι] [Output ο] {σ : Type} (program : Program) (see : σ → Event → σ) :
    Nat → Run ι ο → σ → Run ι ο × σ
  | 0, run, seen => (run, seen)
  | count + 1, run, seen =>
    if run.isWorking then
      let (after, events) := run.next program
      follow program see count after (events.foldl see seen)
    else
      (run, seen)

end Run

end LetterMachine
