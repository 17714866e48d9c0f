import LetterMachine.Proofs.Transitions

/-!
# Runs in another place

A run depends on where its program stands, how many steps were taken before it, and what its limit
is, only in the positions and the numbers that it keeps.  `Run.place` gives it others, and a step
from one instruction to the next is then the same step, if the two instructions are next to each
other in the new place, too.  `Run.relocate` moves all positions by the same distance, and a
relocated run goes on as the run itself does, as long as it finds the same instruction and has a
step left for it.
-/

namespace LetterMachine

/-! ## Steps -/

namespace Control

@[simp]
theorem steps_countStep (control : Control) : control.countStep.steps = control.steps + 1 := rfl

@[simp]
theorem steps_advance (control : Control) : control.advance.steps = control.steps := rfl

@[simp]
theorem steps_enter (control : Control) : control.enter.steps = control.steps := rfl

@[simp]
theorem steps_pass (control : Control) : control.pass.steps = control.steps := rfl

@[simp]
theorem steps_leave (control : Control) : control.leave.steps = control.steps := by
  unfold leave
  split <;> rfl

@[simp]
theorem steps_skip (control : Control) (instruction : Instruction) :
    (control.skip instruction).steps = control.steps := by
  unfold skip
  split
  · rfl
  · split <;> rfl
  · rfl

end Control

theorem Run.steps_next_of_ready {ι ο : Type} [Source ι] [Sink ο] {program : Program}
    {run : Run ι ο} {instruction : Instruction} (hready : run.Ready program instruction) :
    (run.next program).1.control.steps = run.control.steps + 1 := by
  have htransition := run.next_transition program
  generalize run.next program = next at htransition
  cases htransition with
  | ended hended => exact absurd hready.working hended
  | halt _ hget =>
      rw [hready.get?_eq] at hget
      cases hget
  | exhausted _ _ hlimit =>
      rw [hready.exhausted?_eq] at hlimit
      cases hlimit
  | skip | enter | pass | leave | plain => simp
  | back _ _ hback =>
      obtain ⟨start, outer, -, rfl⟩ := Control.exists_of_back? hback
      rfl
  | unmatched | mishap => rfl

/-! ## Other positions -/

/-- The same control at other positions, after a number of steps. -/
def Control.place (positions : Nat → Nat) (steps : Nat) (control : Control) : Control where
  position := positions control.position
  opened := control.opened.map positions
  depth := control.depth
  mode := control.mode
  steps := steps

/-- The same failure at another position. -/
def Failure.place (positions : Nat → Nat) : Failure → Failure
  | .unmatchedLoopClose position => .unmatchedLoopClose (positions position)
  | .remainderByZero position => .remainderByZero (positions position)
  | .stepsExhausted limit => .stepsExhausted limit
  | .io fault => .io fault

def Status.place (positions : Nat → Nat) : Status → Status
  | .working => .working
  | .halted => .halted
  | .failed failure => .failed (failure.place positions)

@[simp]
theorem Status.place_eq_working_iff {positions : Nat → Nat} {status : Status} :
    status.place positions = .working ↔ status = .working := by
  cases status <;> simp [place]

namespace Control

variable {positions : Nat → Nat} (steps : Nat) {control : Control}

theorem skip_place (hbehind : positions (control.position + 1) = positions control.position + 1)
    (instruction : Instruction) :
    (control.place positions steps).skip instruction =
      (control.skip instruction).place positions steps := by
  cases instruction with
  | loopClose =>
      simp only [skip, place, List.length_map, advance]
      split <;> simp only [hbehind]
  | _ => simp only [skip, place, advance, hbehind]

theorem back?_place : (control.place positions steps).back? =
    control.back?.map (place positions steps) := by
  cases hopened : control.opened <;> simp [back?, place, hopened]

theorem leave_place (hbehind : positions (control.position + 1) = positions control.position + 1) :
    (control.place positions steps).leave = control.leave.place positions steps := by
  cases hopened : control.opened <;> simp [leave, place, advance, hopened, hbehind]

end Control

namespace Run

variable {ι ο : Type}

/-- The same run at other positions, after a number of steps, and with another limit. -/
def place (positions : Nat → Nat) (steps : Nat) (limit? : Option Nat) (run : Run ι ο) :
    Run ι ο where
  workspace := run.workspace
  control := run.control.place positions steps
  limit := limit?
  status := run.status.place positions

variable [Source ι] [Sink ο] {positions : Nat → Nat} (steps : Nat) (limit? : Option Nat)
  {run : Run ι ο}

theorem execute_place
    (hbehind : positions (run.control.position + 1) = positions run.control.position + 1)
    (instruction : Instruction) :
    ((run.place positions steps limit?).execute instruction).1 =
      (run.execute instruction).1.place positions steps limit? := by
  by_cases hplain : IsPlain instruction
  · rw [execute_of_isPlain hplain, execute_of_isPlain hplain]
    rcases hexecute : run.workspace.execute instruction with ⟨workspace, mishap?⟩
    simp only [executePlain, place, hexecute]
    cases mishap? with
    | none => simp only [Control.advance, Control.place, hbehind]
    | some mishap => cases mishap <;> rfl
  · cases instruction with
    | loopOpen =>
        rcases htake : run.workspace.takeCondition with ⟨condition, workspace⟩
        simp only [execute, openLoop, place, htake]
        cases condition <;>
          simp [Control.enter, Control.pass, Control.advance, Control.place, hbehind]
    | loopClose =>
        simp only [execute, closeLoop, place, Control.back?_place]
        cases run.control.back? <;> rfl
    | leave => simp only [execute, leaveLoop, place, Control.leave_place steps hbehind]
    | _ => exact absurd ⟨rfl, by simp⟩ hplain

/-- A step is the same in another place, if what comes behind the instruction comes behind it there,
too. -/
theorem step_place
    (hbehind : positions (run.control.position + 1) = positions run.control.position + 1)
    (instruction : Instruction) :
    ((run.place positions steps limit?).step instruction).1 =
      (run.step instruction).1.place positions (steps + 1) limit? := by
  have hsame : (run.place positions steps limit?).control.mode = run.control.mode := rfl
  let counted : Run ι ο := { run with control := run.control.countStep }
  have hbehind' : positions (counted.control.position + 1) =
      positions counted.control.position + 1 := hbehind
  cases hmode : run.control.mode with
  | skipping =>
      have hskip := Control.skip_place (steps + 1) hbehind' instruction
      simp only [step, hsame, hmode]
      exact congrArg (Run.mk _ · _ _) hskip
  | running =>
      have hexecute := execute_place (steps + 1) limit? hbehind' instruction
      simp only [step, hsame, hmode]
      exact hexecute

end Run

/-! ## The same distance everywhere -/

/-- The same control in a program that stands `offset` positions further on, after `steps` steps. -/
def Control.shift (offset steps : Nat) (control : Control) : Control where
  position := offset + control.position
  opened := control.opened.map (offset + ·)
  depth := control.depth
  mode := control.mode
  steps := steps + control.steps

/-- The same failure in a program that stands `offset` positions further on. -/
def Failure.shift (offset : Nat) : Failure → Failure
  | .unmatchedLoopClose position => .unmatchedLoopClose (offset + position)
  | .remainderByZero position => .remainderByZero (offset + position)
  | .stepsExhausted limit => .stepsExhausted limit
  | .io fault => .io fault

def Status.shift (offset : Nat) : Status → Status
  | .working => .working
  | .halted => .halted
  | .failed failure => .failed (failure.shift offset)

theorem Status.shift_eq_place (offset : Nat) (status : Status) :
    status.shift offset = status.place (offset + ·) := by
  cases status with
  | failed failure => cases failure <;> rfl
  | _ => rfl

namespace Run

variable {ι ο : Type}

/-- The same run in a program that stands `offset` positions further on, after `steps` steps, and
with another limit. -/
def relocate (offset steps : Nat) (limit? : Option Nat) (run : Run ι ο) : Run ι ο where
  workspace := run.workspace
  control := run.control.shift offset steps
  limit := limit?
  status := run.status.shift offset

theorem relocate_eq_place (offset steps : Nat) (limit? : Option Nat) (run : Run ι ο) :
    run.relocate offset steps limit? =
      run.place (offset + ·) (steps + run.control.steps) limit? :=
  congrArg (Run.mk _ _ _) (run.status.shift_eq_place offset)

variable [Source ι] [Sink ο] {program whole : Program} {offset steps : Nat} {limit? : Option Nat}
  {run : Run ι ο}

omit [Source ι] [Sink ο] in
theorem ready_relocate {instruction : Instruction} (hready : run.Ready program instruction)
    (hget : whole.get? (offset + run.control.position) = program.get? run.control.position)
    (hleft : ∀ limit ∈ limit?, steps + run.control.steps < limit) :
    (run.relocate offset steps limit?).Ready whole instruction where
  working := by simp [relocate, Status.shift, hready.working]
  get?_eq := hget.trans hready.get?_eq
  exhausted?_eq := exhausted?_eq_none_iff.mpr hleft

/-- **A relocated run goes on as the run does**, if it finds the same instruction and has a step
left for it. -/
theorem next_relocate (hfree : run.limit = none)
    (hget : whole.get? (offset + run.control.position) = program.get? run.control.position)
    (hleft : ∀ instruction, run.Ready program instruction →
      ∀ limit ∈ limit?, steps + run.control.steps < limit) :
    ((run.relocate offset steps limit?).next whole).1 =
      (run.next program).1.relocate offset steps limit? := by
  by_cases hworking : run.status = .working
  · cases hinstruction : program.get? run.control.position with
    | none =>
        have hend : whole.get? (offset + run.control.position) = none := hget.trans hinstruction
        simp only [next, isWorking, relocate, Control.shift, Status.shift, hworking, hend,
          hinstruction]
        rfl
    | some instruction =>
        have hready : run.Ready program instruction :=
          ⟨hworking, hinstruction, exhausted?_eq_none_iff.mpr (by simp [hfree])⟩
        have hready' := ready_relocate hready hget (hleft instruction hready)
        have hsteps := steps_next_of_ready hready
        rw [next_of_ready hready] at hsteps ⊢
        have hbehind : offset + (run.control.position + 1) = offset + run.control.position + 1 :=
          (Nat.add_assoc ..).symm
        rw [next_of_ready hready', relocate_eq_place, relocate_eq_place, hsteps, step_place]
        · rfl
        · exact hbehind
  · have hended : (run.relocate offset steps limit?).status ≠ .working := by
      cases hstatus : run.status <;> simp_all [relocate, Status.shift]
    rw [next_of_ended hworking, next_of_ended hended]

theorem after_relocate (hfree : run.limit = none)
    (hget : ∀ position, whole.get? (offset + position) = program.get? position) {count : Nat}
    (hleft : ∀ earlier < count, ∀ instruction,
      (run.after program earlier).Ready program instruction →
        ∀ limit ∈ limit?, steps + (run.after program earlier).control.steps < limit) :
    (run.relocate offset steps limit?).after whole count =
      (run.after program count).relocate offset steps limit? := by
  induction count with
  | zero => rfl
  | succ count ih =>
      have hearlier := ih fun earlier hlt => hleft earlier (Nat.lt_succ_of_lt hlt)
      have hlimit := (limit_after program run count).trans hfree
      rw [after_succ, after_succ, hearlier,
        next_relocate hlimit (hget _) (hleft count (Nat.lt_succ_self count))]

end Run

end LetterMachine
