import LetterMachine.Machine.Event
import LetterMachine.Program.Listing
import LetterMachine.Value.Text

/-!
# Traces

A trace shows the events of a run as lines of text.  A line for an instruction starts with its
position; what belongs to an instruction stands indented below it.  How much is shown depends on the
verbosity: the instructions executed and the course of the loops, in addition the registers, or also
the instructions passed over.
-/

namespace LetterMachine

inductive Verbosity where
  | course
  | registers
  | skipped
  deriving DecidableEq, Repr

/-- How often the option for more detail was given decides on the verbosity. -/
def Verbosity.ofCount : Nat → Verbosity
  | 0 => .course
  | 1 => .registers
  | _ => .skipped

structure TraceStyle where
  verbosity : Verbosity
  palette : Palette
  /-- The width of the column of positions. -/
  width : Nat

namespace TraceStyle

def ofProgram [Logarithm] (program : Program) (verbosity : Verbosity) (palette : Palette) :
    TraceStyle :=
  ⟨verbosity, palette, program.positionWidth⟩

def showsRegisters (style : TraceStyle) : Bool :=
  style.verbosity != .course

def showsSkipped (style : TraceStyle) : Bool :=
  style.verbosity == .skipped

/-- A line with the position and the symbol of an instruction. -/
def instructionLine (style : TraceStyle) (position : Nat) (instruction : Instruction)
    (content : String) : String :=
  "  " ++ style.palette.faint ++ Program.positionText style.width position ++
    style.palette.reset ++ " " ++ instruction.visibleSymbol.toString ++ " " ++ content

/-- A line under the content of the line of an instruction. -/
def subline (style : TraceStyle) (content : String) : String :=
  String.ofList (List.replicate (style.width + 5) ' ') ++ content

/-- A position that execution jumps to. -/
def jumpTarget (style : TraceStyle) (position : Nat) : String :=
  style.palette.target ++ Program.positionText style.width position ++ style.palette.reset

def registerText (style : TraceStyle) (letter : Letter) (contents : Register) : String :=
  style.palette.register ++ letter.text ++ style.palette.reset ++ ": [" ++
    ", ".intercalate (contents.toList.map Value.text) ++ "]"

def skipText (style : TraceStyle) (instruction : Instruction) (depth : Nat) : String :=
  style.palette.faint ++ "skip " ++ instruction.mnemonic ++ " (depth " ++ depth.repr ++ ")" ++
    style.palette.reset

/-- The line that shows an event, if it is shown. -/
def line? (style : TraceStyle) : Event → Option String
  | .instruction position instruction _ =>
    if instruction.isNop then none
    else some (style.instructionLine position instruction (instruction.highlighted style.palette))
  | .register letter contents =>
    if style.showsRegisters then some (style.subline (style.registerText letter contents)) else none
  | .skip position instruction depth =>
    if style.showsSkipped && !instruction.isNop then
      some (style.instructionLine position instruction (style.skipText instruction depth))
    else
      none
  | .enter _ depth => some (style.subline ("↓ enter loop (depth " ++ depth.repr ++ ")"))
  | .pass _ => some (style.subline "↷ skip loop")
  | .back _ start => some (style.subline ("↑ back to " ++ style.jumpTarget start))
  | .leave _ => some (style.subline "↷ break")
  | .resume position => some (style.subline ("→ resume at " ++ style.jumpTarget (position + 1)))
  | .halt steps =>
    some (style.palette.faint ++ "halt after " ++ steps.repr ++ " steps" ++ style.palette.reset)

/-- Adds the line of an event to the lines before it. -/
def record (style : TraceStyle) (lines : Array String) (event : Event) : Array String :=
  match style.line? event with
  | some line => lines.push line
  | none => lines

end TraceStyle

end LetterMachine
