import LetterMachine.Source

/-!
# What ends a run early
-/

namespace LetterMachine

/-- What an instruction on registers may fail with, wherever it stands. -/
inductive Mishap where
  | remainderByZero
  | io (fault : Fault)
  deriving DecidableEq, Repr

/-- What a run may fail with. -/
inductive Failure where
  | unmatchedLoopClose (position : Nat)
  | remainderByZero (position : Nat)
  | stepsExhausted (limit : Nat)
  | io (fault : Fault)
  deriving DecidableEq, Repr

/-- The failure of a run at an instruction. -/
def Mishap.failureAt (mishap : Mishap) (position : Nat) : Failure :=
  match mishap with
  | .remainderByZero => .remainderByZero position
  | .io fault => .io fault

def Failure.message : Failure → String
  | .unmatchedLoopClose position => "loop close at " ++ position.repr ++ " has no open loop"
  | .remainderByZero position => "integer remainder by zero at " ++ position.repr
  | .stepsExhausted limit => "runtime execution limit exceeded (" ++ limit.repr ++ " steps)"
  | .io fault => "i/o error: " ++ fault.message

end LetterMachine
