import LetterMachine.Bank
import LetterMachine.Machine.Event
import LetterMachine.Machine.Failure
import LetterMachine.Output
import LetterMachine.Value.Token

/-!
# Instructions on registers

What every instruction other than the loop instructions does: it works on the active register, may
read from the source and print to the output, and leaves the position in the program out of account.

An instruction that finds fewer values than it needs does nothing.  Printing and reading take their
operand before they turn to the output or the source, and a failure there does not bring it back.
-/

namespace LetterMachine

/-- What instructions work on. -/
structure Workspace (ι ο : Type) where
  bank : Bank
  active : Letter
  input : ι
  output : ο

namespace Workspace

variable {ι ο : Type}

/-- The contents of the active register. -/
def contents (workspace : Workspace ι ο) : Register :=
  workspace.bank.get workspace.active

/-- Replaces the contents of the active register. -/
def put (workspace : Workspace ι ο) (register : Register) : Workspace ι ο :=
  { workspace with bank := workspace.bank.set workspace.active register }

def push (workspace : Workspace ι ο) (value : Value) : Workspace ι ο :=
  workspace.put (workspace.contents.pushFront value)

def transfer (workspace : Workspace ι ο) (target : Letter) : Workspace ι ο :=
  match workspace.bank.transfer? workspace.active target with
  | some bank => { workspace with bank := bank }
  | none => workspace

def shuffle (workspace : Workspace ι ο) (kind : Shuffle) : Workspace ι ο :=
  match kind.rearrange? workspace.contents with
  | some register => workspace.put register
  | none => workspace

/-- Replaces the two front values by the result of an operator, or leaves them if there is none. -/
def operate (workspace : Workspace ι ο) (operator : Operator) :
    Workspace ι ο × Option Mishap :=
  match Register.takePair? workspace.contents with
  | none => (workspace, none)
  | some (left, right, rest) =>
    match operator.result? left right with
    | some result => (workspace.put (rest.pushFront result), none)
    | none => (workspace, some .remainderByZero)

def negate (workspace : Workspace ι ο) : Workspace ι ο :=
  match workspace.contents.popFront? with
  | none => workspace
  | some (value, rest) => workspace.put (rest.pushFront value.not)

/-- Prints a value as an integer, as a double or as a byte. -/
def printValue [Output ο] (form : PrintForm) (value : Value) : ο → Except Fault Unit × ο :=
  match form with
  | .integer => Output.writeInt value.toInt64
  | .float => Output.writeFloat value.toBinary64
  | .byte => Output.writeByte value.toByte

def print [Output ο] (workspace : Workspace ι ο) (form : PrintForm) :
    Workspace ι ο × Option Mishap :=
  match workspace.contents.popFront? with
  | none => (workspace, none)
  | some (value, rest) =>
    let (result, output) := printValue form value workspace.output
    let workspace := { workspace with output := output }.put rest
    match result with
    | .ok () => (workspace, none)
    | .error fault => (workspace, some (.io fault))

/-- The bytes that a value is printed as. -/
def printed (form : PrintForm) (value : Value) : List UInt8 :=
  match form with
  | .integer => Utf8.encode (Decimal.integer value.toInt64.toInt)
  | .float => Utf8.encode value.toBinary64.sixDigits
  | .byte => [value.toByte]

theorem printValue_eq_write [Sink ο] (form : PrintForm) (value : Value) :
    printValue form value = (Sink.write (printed form value) : ο → Except Fault Unit × ο) := by
  cases form <;> rfl

/-- The value of a token, or minus one at the end of the input. -/
def numberRead : Option (List UInt8) → Value
  | some token => Value.ofToken (Utf8.decode token)
  | none => .integer (-1)

/-- The value of a byte, or minus one at the end of the input. -/
def byteRead : Option UInt8 → Value
  | some byte => .ofByte byte
  | none => .integer (-1)

/-- The values of a text: its bytes, and a zero under them. -/
def textRead (bytes : List UInt8) : List Value :=
  bytes.map Value.ofByte ++ [.integer 0]

/-- Uses what a reading has given, if it has not failed. -/
def afterReading {result : Type} (workspace : Workspace ι ο) (reading : Except Fault result × ι)
    (use : Workspace ι ο → result → Workspace ι ο) : Workspace ι ο × Option Mishap :=
  let (outcome, input) := reading
  let workspace := { workspace with input := input }
  match outcome with
  | .ok result => (use workspace result, none)
  | .error fault => (workspace, some (.io fault))

/-- Reads a text.  Its delimiter is the low byte of the front value, unless that value is zero: then
the text is the next token. -/
def readText [Source ι] (workspace : Workspace ι ο) : Workspace ι ο × Option Mishap :=
  match workspace.contents.popFront? with
  | none => (workspace, none)
  | some (delimiter, rest) =>
    let workspace := workspace.put rest
    let finish := fun (workspace : Workspace ι ο) bytes =>
      workspace.put (workspace.contents.prepend (textRead bytes))
    if delimiter.toInt64 = 0 then
      workspace.afterReading (Source.readToken workspace.input) fun workspace token? =>
        finish workspace (token?.getD [])
    else
      workspace.afterReading (Source.readUntil delimiter.toByte workspace.input) finish

def read [Source ι] (workspace : Workspace ι ο) (form : ReadForm) :
    Workspace ι ο × Option Mishap :=
  match form with
  | .number =>
    workspace.afterReading (Source.readToken workspace.input) fun workspace token? =>
      workspace.push (numberRead token?)
  | .byte =>
    workspace.afterReading (Source.readByte workspace.input) fun workspace byte? =>
      workspace.push (byteRead byte?)
  | .text => workspace.readText

/-- Executes an instruction.  Loop instructions and instructions without effect do nothing here. -/
def execute [Source ι] [Output ο] (workspace : Workspace ι ο) (instruction : Instruction) :
    Workspace ι ο × Option Mishap :=
  match instruction with
  | .select letter => ({ workspace with active := letter }, none)
  | .transfer target => (workspace.transfer target, none)
  | .digit value => (workspace.push (.integer (Int64.ofNat value)), none)
  | .shuffle kind => (workspace.shuffle kind, none)
  | .operate operator => workspace.operate operator
  | .not => (workspace.negate, none)
  | .print form => workspace.print form
  | .read form => workspace.read form
  | .loopOpen | .loopClose | .leave | .nop _ => (workspace, none)

/-- Takes the condition of a loop.  An empty register is a false condition. -/
def takeCondition (workspace : Workspace ι ο) : Bool × Workspace ι ο :=
  match workspace.contents.popFront? with
  | none => (false, workspace)
  | some (condition, rest) => (condition.isTruthy, workspace.put rest)

/-- The report of a register. -/
def report (workspace : Workspace ι ο) (letter : Letter) : Event :=
  .register letter (workspace.bank.get letter)

/-- What is reported after an instruction that has been executed without a mishap: the register
that was transferred to, if a value was, and the active register. -/
def reports (before after : Workspace ι ο) (instruction : Instruction) : List Event :=
  match instruction with
  | .nop _ => []
  | .transfer target =>
    if before.contents.isEmpty then [after.report after.active]
    else [after.report target, after.report after.active]
  | _ => [after.report after.active]

end Workspace

end LetterMachine
