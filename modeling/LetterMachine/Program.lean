import LetterMachine.Instruction

/-!
# Programs

A program is a sequence of instructions.  A source text holds its program on its first line; the
end of that line is kept as one last instruction without effect.
-/

namespace LetterMachine

structure Program where
  instructions : Array Instruction
  deriving DecidableEq, Repr

namespace Program

/-- The text before the first line break.  A carriage return directly before the line feed belongs
to the break; any other carriage return belongs to the line. -/
def firstLine : List Char → List Char
  | [] => []
  | '\n' :: _ => []
  | '\r' :: '\n' :: _ => []
  | c :: rest => c :: firstLine rest

/-- One instruction for each character. -/
def ofChars (characters : List Char) : Program :=
  ⟨(characters.map Instruction.ofChar).toArray⟩

/-- The program on the first line of a source text. -/
def ofSource (source : List Char) : Program :=
  ofChars (firstLine source ++ ['\n'])

def size (program : Program) : Nat :=
  program.instructions.size

def get? (program : Program) (position : Nat) : Option Instruction :=
  program.instructions[position]?

/-- The characters that the program is written as. -/
def symbols (program : Program) : List Char :=
  program.instructions.toList.map Instruction.symbol

theorem symbols_ofChars (characters : List Char) :
    (ofChars characters).symbols = characters := by
  simp [symbols, ofChars, Function.comp_def, Instruction.symbol_ofChar]

end Program

end LetterMachine
