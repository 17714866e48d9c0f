import LetterMachine.Binary64.Interchange
import LetterMachine.CommandLine.Parser
import LetterMachine.CommandLine.Session

/-!
# The command line

Reads the arguments, the standard input and the program, carries the run on until it has ended, and
writes the answer.
-/

namespace LetterMachine.CommandLine

/-- The decimal logarithm of the system. -/
@[reducible]
def systemLogarithm : Logarithm where
  log10 number := .ofBits (Float.log10 (Float.ofBits number.toBits)).toBits

/-- The number of a system error.  Some calls give it negated. -/
def errorNumber (number : UInt32) : UInt32 :=
  if number < 0x80000000 then number else 0 - number

/-- The reason for which the system refused to read a file. -/
def ReadError.ofSystem : IO.Error → ReadError
  | .noFileOrDirectory .. => .missing
  | .permissionDenied .. => .other "Permission denied (os error 13)"
  | .inappropriateType _ number _ =>
    if errorNumber number = 20 then .notDirectory else .isDirectory
  | error@(.invalidArgument _ number _) =>
    if errorNumber number = 36 then .nameTooLong else .other (toString error)
  | error => .other (toString error)

def readFile (path : String) : IO (Except ReadError (List UInt8)) := do
  try
    return .ok (← IO.FS.readBinFile path).toList
  catch error =>
    return .error (.ofSystem error)

/-- The standard input to its end, or up to a failure. -/
def readInput : IO ByteStream := do
  try
    return { bytes := (← (← IO.getStdin).readBinToEnd).toList }
  catch _ =>
    return { bytes := [], broken := true }

/-- Carries on a task until it is answered. -/
partial def Task.finish (task : Task OutputBuffer) : IO Response :=
  match task.response? with
  | some response => pure response
  | none => (task.advance 65536).finish

/-- The path among the values of a command, and whether the command reads the standard input. -/
def Matches.needs (found : Matches) : Option String × Bool :=
  match found.command? with
  | none => (found.values.programPath?, true)
  | some (name, values) => (values.programPath?, name = "run" || name = "trace")

/-- The part of the world that what is matched looks at. -/
def Matches.world (found : Matches) : IO World := do
  let (path?, readsInput) := found.needs
  let stdin ← if readsInput then readInput else pure { bytes := [] }
  let found? := match path? with
    | some path => some path
    | none => (readProgramPath stdin).1.toOption.join
  let content ← match found? with
    | some path => readFile path
    | none => pure (.error .missing)
  return {
    read := fun _ => content
    stdin := stdin
    stdoutIsTerminal := ← (← IO.getStdout).isTty
    stderrIsTerminal := ← (← IO.getStderr).isTty }

def answer (parsed : Parsed) : IO Response := do
  let world ← match parsed with
    | .answered _ => pure { read := fun _ => .error .missing, stdin := { bytes := [] } }
    | .matched found => found.world
  (@Task.ofParsed _ _ systemLogarithm .standard world {} parsed).finish

end LetterMachine.CommandLine

open LetterMachine.CommandLine

def main (arguments : List String) : IO UInt32 := do
  let response ← answer (parseArguments arguments)
  (← IO.getStdout).write ⟨response.stdout.toArray⟩
  IO.eprint response.stderr
  return response.exit.toUInt32
