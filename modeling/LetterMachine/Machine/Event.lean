import LetterMachine.Register

/-!
# Events of a run

What a run reports of itself while it goes on.
-/

namespace LetterMachine

inductive Event where
  /-- An instruction is about to be executed. -/
  | instruction (position : Nat) (instruction : Instruction) (active : Letter)
  /-- A register may have changed. -/
  | register (letter : Letter) (contents : Register)
  /-- An instruction is passed over. -/
  | skip (position : Nat) (instruction : Instruction) (depth : Nat)
  /-- A loop is entered, as the innermost of `depth` loops. -/
  | enter (position : Nat) (depth : Nat)
  /-- The body of a loop is about to be passed over. -/
  | pass (position : Nat)
  /-- A loop goes back from its end to its start. -/
  | back (position : Nat) (start : Nat)
  /-- The innermost loop is left. -/
  | leave (position : Nat)
  /-- Execution goes on after the loop that ends here. -/
  | resume (position : Nat)
  /-- The program has run to its end. -/
  | halt (steps : Nat)
  deriving DecidableEq

end LetterMachine
