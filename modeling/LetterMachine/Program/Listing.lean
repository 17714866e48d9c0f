import LetterMachine.Decimal.Digits
import LetterMachine.Decimal.IndexWidth
import LetterMachine.Palette
import LetterMachine.Program.Loops

/-!
# Listing of a program

One line for each instruction that has an effect: its position, its symbol, what it does, and for a
loop bracket the position of its partner.
-/

namespace LetterMachine

namespace Instruction

/-- The description of the instruction, with the register it names marked. -/
def highlighted (palette : Palette) (instruction : Instruction) : String :=
  match instruction with
  | .select letter | .transfer letter =>
    instruction.mnemonic ++ " " ++ palette.register ++ letter.text ++ palette.reset
  | _ => instruction.describe

end Instruction

namespace Program

/-- The width of the column of positions of a program. -/
def positionWidth [Logarithm] (program : Program) : Nat :=
  Decimal.indexWidth program.size

def positionText (width position : Nat) : String :=
  String.ofList (Decimal.padded width position)

/-- The position of the partner of a loop bracket, or a question mark if it has none. -/
def partnerText (width : Nat) (partner? : Option Nat) : String :=
  match partner? with
  | some partner => positionText width partner
  | none => "?"

def listingLine (palette : Palette) (width : Nat) (table : LoopTable) (position : Nat)
    (instruction : Instruction) : String :=
  let entry := "  " ++ palette.faint ++ positionText width position ++ palette.reset ++ "  " ++
    instruction.visibleSymbol.toString ++ "  " ++ instruction.highlighted palette
  if instruction.isLoopBracket then
    entry ++ " " ++ palette.target ++ "→ " ++ partnerText width (table.partner? position) ++
      palette.reset
  else
    entry

/-- The lines of the listing, the heading first. -/
def listingLines [Logarithm] (palette : Palette) (program : Program) : List String :=
  let width := program.positionWidth
  let table := program.loops
  (palette.heading ++ "[code]" ++ palette.reset) ::
    program.instructions.toList.zipIdx.filterMap fun (instruction, position) =>
      if instruction.isNop then none
      else some (listingLine palette width table position instruction)

/-- The listing as one text, in which every line ends with a line feed. -/
def listing [Logarithm] (palette : Palette) (program : Program) : String :=
  String.join ((program.listingLines palette).map (· ++ "\n"))

end Program

end LetterMachine
