import LetterMachine.Machine.Event

/-!
# Control

Where a run stands in its program.  A run executes instructions, or it passes over them until the
end of a loop that is not entered or has been left.  Loops are not paired beforehand.  The run
remembers where the open loops start, and while it passes over instructions it counts the loops it
comes by.
-/

namespace LetterMachine

inductive Mode where
  | running
  | skipping
  deriving DecidableEq, Repr

structure Control where
  /-- The position of the next instruction. -/
  position : Nat := 0
  /-- Where the open loops start, the innermost first. -/
  opened : List Nat := []
  /-- The number of loops around the next instruction, those passed over included. -/
  depth : Nat := 0
  mode : Mode := .running
  /-- The number of instructions executed or passed over. -/
  steps : Nat := 0
  deriving DecidableEq, Repr

namespace Control

def advance (control : Control) : Control :=
  { control with position := control.position + 1 }

def countStep (control : Control) : Control :=
  { control with steps := control.steps + 1 }

/-- Passes over one instruction.  The end of a loop at the depth of the open loops is the one that
was looked for. -/
def skip (control : Control) (instruction : Instruction) : Control :=
  match instruction with
  | .loopOpen => { control with depth := control.depth + 1 }.advance
  | .loopClose =>
    if control.depth = control.opened.length then { control with mode := .running }.advance
    else { control with depth := control.depth - 1 }.advance
  | _ => control.advance

/-- Enters the loop that starts here. -/
def enter (control : Control) : Control :=
  { control with opened := control.position :: control.opened, depth := control.depth + 1 }.advance

/-- Passes over the body of the loop that starts here. -/
def pass (control : Control) : Control :=
  { control with mode := .skipping }.advance

/-- Goes back to the start of the innermost loop, which is then no longer open. -/
def back? (control : Control) : Option Control :=
  match control.opened with
  | [] => none
  | start :: outer =>
    some { control with position := start, opened := outer, depth := control.depth - 1 }

theorem exists_of_back? {control control' : Control} (hback : control.back? = some control') :
    ∃ start outer, control.opened = start :: outer ∧
      control' =
        { control with position := start, opened := outer, depth := control.depth - 1 } := by
  unfold back? at hback
  split at hback
  · cases hback
  · exact ⟨_, _, ‹_›, (Option.some.inj hback).symm⟩

/-- Leaves the innermost loop, if there is one, and passes over what is left of its body. -/
def leave (control : Control) : Control :=
  match control.opened with
  | [] => { control with mode := .skipping }.advance
  | _ :: outer =>
    { control with opened := outer, depth := control.depth - 1, mode := .skipping }.advance

/-- What is reported of an instruction that is passed over. -/
def skipEvents (control : Control) (instruction : Instruction) : List Event :=
  let passed := Event.skip control.position instruction control.depth
  if instruction = .loopClose ∧ control.depth = control.opened.length then
    [passed, .resume control.position]
  else
    [passed]

end Control

end LetterMachine
