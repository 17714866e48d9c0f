import LetterMachine.Program

/-!
# Loop brackets

A loop is written between `?` and `\`.  Brackets pair by nesting: each `\` closes the innermost `?`
that is still open.  The pairing and the brackets left over are read off the text of the program,
without running it.
-/

namespace LetterMachine

/-- The pairs of loop brackets of a program, each as the positions of its two ends. -/
structure LoopTable where
  pairs : List (Nat × Nat)
  deriving DecidableEq, Repr

namespace LoopTable

/-- Pairs the brackets of the instructions from `position` on, where `opened` holds the positions
of the loops still open, the innermost first. -/
def pairsFrom (position : Nat) (opened : List Nat) : List Instruction → List (Nat × Nat)
  | [] => []
  | .loopOpen :: rest => pairsFrom (position + 1) (position :: opened) rest
  | .loopClose :: rest =>
    match opened with
    | [] => pairsFrom (position + 1) [] rest
    | start :: outer => (start, position) :: pairsFrom (position + 1) outer rest
  | _ :: rest => pairsFrom (position + 1) opened rest

/-- The other end of the loop that has a bracket at `position`. -/
def partner? (table : LoopTable) (position : Nat) : Option Nat :=
  table.pairs.findSome? fun (start, stop) =>
    if start = position then some stop else if stop = position then some start else none

def size (table : LoopTable) : Nat :=
  table.pairs.length

end LoopTable

/-- A loop bracket without a partner. -/
inductive StructureIssue where
  | unmatchedClose (position : Nat)
  | unclosedOpen (position : Nat)
  deriving DecidableEq, Repr

namespace StructureIssue

def position : StructureIssue → Nat
  | .unmatchedClose position => position
  | .unclosedOpen position => position

def message : StructureIssue → String
  | .unmatchedClose position =>
    "loop close \x60\\\x60 at " ++ position.repr ++ " has no matching \x60?\x60"
  | .unclosedOpen position => "loop open \x60?\x60 at " ++ position.repr ++ " is never closed"

end StructureIssue

namespace Program

def loops (program : Program) : LoopTable :=
  ⟨LoopTable.pairsFrom 0 [] program.instructions.toList⟩

/-- What is wrong with the instruction at `position`: it is a bracket that the table leaves
alone. -/
def issueAt? (table : LoopTable) (position : Nat) : Instruction → Option StructureIssue
  | .loopOpen =>
    if (table.partner? position).isNone then some (.unclosedOpen position) else none
  | .loopClose =>
    if (table.partner? position).isNone then some (.unmatchedClose position) else none
  | _ => none

/-- The brackets without a partner, in the order of the program. -/
def issues (program : Program) : List StructureIssue :=
  let table := program.loops
  program.instructions.toList.zipIdx.filterMap fun (instruction, position) =>
    issueAt? table position instruction

end Program

end LetterMachine
