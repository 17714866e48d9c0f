import LetterMachine.Letter

/-!
# Instructions

Every character of a program is one instruction.  The characters that mean nothing are kept as
instructions without effect, so that the position of an instruction is always the position of its
character.

Instructions that act alike are one constructor with a parameter: the rearrangements of a single
register, the operators on two operands, the forms of printing and the forms of reading.
-/

namespace LetterMachine

/-- A rearrangement of the values of one register. -/
inductive Shuffle where
  | dup
  | swap
  | backToFront
  | frontToBack
  | drop
  deriving DecidableEq, Repr

/-- An operator that replaces the two front values of a register by its result. -/
inductive Operator where
  | add
  | sub
  | mul
  | div
  | rem
  | eq
  | gt
  | lt
  | and
  | or
  deriving DecidableEq, Repr

inductive PrintForm where
  | integer
  | float
  | byte
  deriving DecidableEq, Repr

inductive ReadForm where
  | number
  | byte
  | text
  deriving DecidableEq, Repr

inductive Instruction where
  | select (letter : Letter)
  | transfer (letter : Letter)
  | digit (value : Fin 10)
  | shuffle (kind : Shuffle)
  | operate (operator : Operator)
  | not
  | print (form : PrintForm)
  | read (form : ReadForm)
  | loopOpen
  | loopClose
  | leave
  | nop (character : Char)
  deriving DecidableEq, Repr

namespace Shuffle

def symbol : Shuffle → Char
  | .dup => ':'
  | .swap => ';'
  | .backToFront => '.'
  | .frontToBack => ','
  | .drop => ' '

def mnemonic : Shuffle → String
  | .dup => "dup"
  | .swap => "swap"
  | .backToFront => "rotf"
  | .frontToBack => "rotb"
  | .drop => "drop"

end Shuffle

namespace Operator

def symbol : Operator → Char
  | .add => '+'
  | .sub => '-'
  | .mul => '*'
  | .div => '/'
  | .rem => '%'
  | .eq => '='
  | .gt => '>'
  | .lt => '<'
  | .and => '&'
  | .or => '|'

def mnemonic : Operator → String
  | .add => "add"
  | .sub => "sub"
  | .mul => "mul"
  | .div => "div"
  | .rem => "rem"
  | .eq => "eq"
  | .gt => "gt"
  | .lt => "lt"
  | .and => "and"
  | .or => "or"

end Operator

namespace PrintForm

def symbol : PrintForm → Char
  | .integer => '#'
  | .float => '^'
  | .byte => '@'

def mnemonic : PrintForm → String
  | .integer => "puti"
  | .float => "putf"
  | .byte => "putc"

end PrintForm

namespace ReadForm

def symbol : ReadForm → Char
  | .number => '\x60'
  | .byte => '\x27'
  | .text => '"'

def mnemonic : ReadForm → String
  | .number => "getn"
  | .byte => "getc"
  | .text => "gets"

end ReadForm

namespace Instruction

/-- The instruction with a fixed symbol of its own, if the character is such a symbol. -/
def ofSymbol? : Char → Option Instruction
  | ':' => some (.shuffle .dup)
  | ';' => some (.shuffle .swap)
  | '.' => some (.shuffle .backToFront)
  | ',' => some (.shuffle .frontToBack)
  | ' ' => some (.shuffle .drop)
  | '+' => some (.operate .add)
  | '-' => some (.operate .sub)
  | '*' => some (.operate .mul)
  | '/' => some (.operate .div)
  | '%' => some (.operate .rem)
  | '=' => some (.operate .eq)
  | '>' => some (.operate .gt)
  | '<' => some (.operate .lt)
  | '&' => some (.operate .and)
  | '|' => some (.operate .or)
  | '~' => some .not
  | '#' => some (.print .integer)
  | '^' => some (.print .float)
  | '@' => some (.print .byte)
  | '\x60' => some (.read .number)
  | '\x27' => some (.read .byte)
  | '"' => some (.read .text)
  | '?' => some .loopOpen
  | '\\' => some .loopClose
  | '!' => some .leave
  | _ => none

def ofDigit? (c : Char) : Option Instruction :=
  if c.isDigit then some (.digit (Fin.ofNat 10 (c.toNat - '0'.toNat))) else none

/-- A lower-case letter selects its register and an upper-case letter transfers to it, a digit
pushes itself, and a character that means nothing is an instruction without effect. -/
def ofChar (c : Char) : Instruction :=
  ((((Letter.ofLower? c).map select).or ((Letter.ofUpper? c).map transfer)).or
    ((ofDigit? c).or (ofSymbol? c))).getD (.nop c)

/-- The character that the instruction is written as. -/
def symbol : Instruction → Char
  | .select letter => letter.lower
  | .transfer letter => letter.upper
  | .digit value => Char.ofNat ('0'.toNat + value)
  | .shuffle kind => kind.symbol
  | .operate operator => operator.symbol
  | .not => '~'
  | .print form => form.symbol
  | .read form => form.symbol
  | .loopOpen => '?'
  | .loopClose => '\\'
  | .leave => '!'
  | .nop character => character

/-- The symbol as listings show it, with a dot in place of the blank. -/
def visibleSymbol : Instruction → Char
  | .shuffle .drop => '·'
  | instruction => instruction.symbol

def mnemonic : Instruction → String
  | .select _ => "sel"
  | .transfer _ => "xfer"
  | .digit _ => "push"
  | .shuffle kind => kind.mnemonic
  | .operate operator => operator.mnemonic
  | .not => "not"
  | .print form => form.mnemonic
  | .read form => form.mnemonic
  | .loopOpen => "loop"
  | .loopClose => "end"
  | .leave => "break"
  | .nop _ => "nop"

/-- The mnemonic, followed by the operand where there is one. -/
def describe (instruction : Instruction) : String :=
  match instruction with
  | .select letter => instruction.mnemonic ++ " " ++ letter.text
  | .transfer letter => instruction.mnemonic ++ " " ++ letter.text
  | .digit value => instruction.mnemonic ++ " " ++ value.val.repr
  | _ => instruction.mnemonic

def isNop : Instruction → Bool
  | .nop _ => true
  | _ => false

def isInput : Instruction → Bool
  | .read _ => true
  | _ => false

def isLoopBracket : Instruction → Bool
  | .loopOpen | .loopClose => true
  | _ => false

theorem symbol_of_ofSymbol? {c : Char} {instruction : Instruction}
    (hinstruction : ofSymbol? c = some instruction) : instruction.symbol = c := by
  unfold ofSymbol? at hinstruction
  split at hinstruction <;> cases hinstruction <;> rfl

theorem symbol_of_ofDigit? {c : Char} {instruction : Instruction}
    (hinstruction : ofDigit? c = some instruction) : instruction.symbol = c := by
  unfold ofDigit? at hinstruction
  split at hinstruction
  · rename_i hdigit
    simp only [Option.some.injEq] at hinstruction
    subst hinstruction
    simp only [Char.isDigit, Bool.and_eq_true, decide_eq_true_eq] at hdigit
    have hlowest : '0'.toNat ≤ c.toNat := UInt32.le_iff_toNat_le.mp hdigit.1
    have hhighest : c.toNat ≤ '9'.toNat := UInt32.le_iff_toNat_le.mp hdigit.2
    have hmod : (c.toNat - '0'.toNat) % 10 = c.toNat - '0'.toNat := by
      apply Nat.mod_eq_of_lt
      change c.toNat - 48 < 10
      change c.toNat ≤ 57 at hhighest
      omega
    simp only [symbol, Fin.ofNat, hmod]
    rw [Nat.add_sub_cancel' hlowest, Char.ofNat_toNat]
  · contradiction

/-- Every character is the symbol of its instruction. -/
theorem symbol_ofChar (c : Char) : (ofChar c).symbol = c := by
  unfold ofChar
  cases hlower : Letter.ofLower? c with
  | some letter => simpa [symbol] using Letter.lower_of_ofLower? hlower
  | none =>
    cases hupper : Letter.ofUpper? c with
    | some letter => simpa [symbol] using Letter.upper_of_ofUpper? hupper
    | none =>
      cases hdigit : ofDigit? c with
      | some instruction => simpa using symbol_of_ofDigit? hdigit
      | none =>
        cases hsymbol : ofSymbol? c with
        | some instruction => simpa using symbol_of_ofSymbol? hsymbol
        | none => simp [symbol]

end Instruction

end LetterMachine
