import LetterMachine.Bank.Json
import LetterMachine.BufferedOutput
import LetterMachine.CommandLine.Files
import LetterMachine.CommandLine.Matches
import LetterMachine.Machine.Run

/-!
# Carrying out commands

To list or to check a program is done at once.  A run may go on for ever, so it is carried on piece
by piece until it has ended, and what is left to do then depends on the command that has started it.

Without a path among the arguments, the path of the program is the first token of the standard
input, and what follows it is the input of the program.
-/

namespace LetterMachine.CommandLine

/-- What commands may look at: the files, the standard input, and what the process is connected
to. -/
structure World where
  read : String → Except ReadError (List UInt8)
  stdin : ByteStream
  stdoutIsTerminal : Bool := false
  stderrIsTerminal : Bool := false

/-- Whether to use colours. -/
def World.colours (world : World) (colour : Colour) : Bool :=
  colour.isOn world.stdoutIsTerminal world.stderrIsTerminal

/-- Why there is no program to run. -/
inductive LoadError where
  | unreadable (path : String) (reason : ReadError)
  | noPath (fault : Fault)
  deriving DecidableEq, Repr

def LoadError.message : LoadError → String
  | .unreadable path reason => "failed to read '" ++ path ++ "': " ++ reason.message
  | .noPath fault => "failed to read program path from stdin: " ++ fault.message

def errorLine (message : String) : String :=
  "error: " ++ message ++ "\n"

/-! ## The program -/

/-- The program in the file at a path. -/
def World.load (world : World) (path : String) : Except LoadError Program :=
  match world.read path with
  | .ok bytes => .ok (.ofSource (Utf8.decode bytes))
  | .error reason => .error (.unreadable path reason)

/-- The first token of the standard input, and what follows it. -/
def readProgramPath (stdin : ByteStream) : Except LoadError (Option String) × ByteStream :=
  let (token?, rest) := stdin.readToken
  match token? with
  | .ok token? => (.ok (token?.map fun token => String.ofList (Utf8.decode token)), rest)
  | .error fault => (.error (.noPath fault), rest)

/-- The program to run and its input.  There may be none to run. -/
def World.prepare (world : World) (path? : Option String) :
    Except LoadError (Option (Program × ByteStream)) :=
  match path? with
  | some path => (world.load path).map fun program => some (program, world.stdin)
  | none =>
    match readProgramPath world.stdin with
    | (.error error, _) => .error error
    | (.ok none, _) => .ok none
    | (.ok (some path), input) => (world.load path).map fun program => some (program, input)

/-! ## Runs -/

/-- A run under way, and what has been made of its events. -/
structure Execution (ο σ : Type) where
  program : Program
  see : σ → Event → σ
  run : Run ByteStream (BufferedOutput ο)
  seen : σ

namespace Execution

variable {ο σ : Type}

def start (program : Program) (fuel? : Option UInt64) (input : ByteStream) (stdout : ο)
    (see : σ → Event → σ) (seen : σ) : Execution ο σ where
  program := program
  see := see
  run := Machine.start { limit := fuel?.map UInt64.toNat } input (.ofDevice stdout)
  seen := seen

/-- How the run has ended, if it has. -/
def result? (execution : Execution ο σ) : Option (Except Failure Unit) :=
  match execution.run.status with
  | .working => none
  | .halted => some (.ok ())
  | .failed failure => some (.error failure)

variable [Device ο]

/-- Carries the run on by at most `count` instructions. -/
def advance (count : Nat) (execution : Execution ο σ) : Execution ο σ :=
  let (run, seen) := execution.run.follow execution.program execution.see count execution.seen
  { execution with run := run, seen := seen }

/-- What is left to do after a run that has not been traced. -/
def finishRun (execution : Execution ο Unit) (result : Except Failure Unit) : Response :=
  let (flushed, stdout) := execution.run.workspace.output.flush
  match result with
  | .error failure => ⟨2, stdout.output, errorLine failure.message⟩
  | .ok () =>
    match flushed with
    | .error fault =>
      ⟨2, stdout.output, errorLine ("failed to write output: " ++ fault.message)⟩
    | .ok () => ⟨0, stdout.output, ""⟩

end Execution

/-- How the registers are shown after a trace, if they are. -/
structure Listing where
  serializer : Serializer
  palette : Palette
  isOff : Bool

namespace Execution

variable {ο : Type} [Device ο]

def traceText (execution : Execution ο (Array String)) : String :=
  String.join (execution.seen.toList.map (· ++ "\n"))

/-- What is left to do after a run that has been traced.  The trace is shown first. -/
def finishTrace (listing : Listing) (execution : Execution ο (Array String))
    (result : Except Failure Unit) : Response :=
  let (flushed, stdout) := execution.run.workspace.output.flush
  let traced := execution.traceText
  match result with
  | .error failure => ⟨2, stdout.output, traced ++ errorLine failure.message⟩
  | .ok () =>
    match flushed with
    | .error fault =>
      ⟨2, stdout.output, traced ++ errorLine ("failed to write output: " ++ fault.message)⟩
    | .ok () =>
      if listing.isOff then ⟨0, stdout.output, traced⟩
      else
        let ruled := traced ++ listing.palette.faint ++ "---" ++ listing.palette.reset ++ "\n"
        match listing.serializer.indented execution.run.workspace.bank.datum with
        | .ok json => ⟨0, stdout.output, ruled ++ json ++ "\n"⟩
        | .error message =>
          ⟨1, stdout.output, ruled ++ errorLine ("failed to serialize registers: " ++ message)⟩

end Execution

/-! ## Commands -/

/-- What is left to do for a command. -/
inductive Task (ο : Type) where
  | answered (response : Response)
  | running (execution : Execution ο Unit)
  | tracing (listing : Listing) (execution : Execution ο (Array String))

namespace Task

variable {ο : Type} [Device ο]

/-- Nothing more is put out. -/
def ended (stdout : ο) (exit : Nat) (stderr : String) : Task ο :=
  .answered ⟨exit, Device.output stdout, stderr⟩

/-- Bytes are put out, and the task ends if they are taken. -/
def printed (stdout : ο) (bytes : List UInt8) (exit : Nat) (stderr : String) : Task ο :=
  match Device.put bytes stdout with
  | (.ok (), stdout) => ended stdout exit stderr
  | (.error (fault, _), stdout) =>
    ended stdout 101 ("failed printing to stdout: " ++ fault.message ++ "\n")

/-- Starts to run a program. -/
def run (world : World) (stdout : ο) (arguments : RunArguments) : Task ο :=
  match world.prepare arguments.programPath? with
  | .error error => ended stdout 1 (errorLine error.message)
  | .ok none => ended stdout 0 ""
  | .ok (some (program, input)) =>
    .running (.start program arguments.fuel? input stdout (fun _ _ => ()) ())

/-- Starts to run a program and to trace it. -/
def trace [Logarithm] (serializer : Serializer) (world : World) (stdout : ο)
    (arguments : TraceArguments) : Task ο :=
  match world.prepare arguments.programPath? with
  | .error error => ended stdout 1 (errorLine error.message)
  | .ok none => ended stdout 0 ""
  | .ok (some (program, input)) =>
    let palette := .choose (world.colours arguments.colour)
    let style := TraceStyle.ofProgram program arguments.verbosity palette
    .tracing ⟨serializer, palette, arguments.noResult⟩
      (.start program arguments.fuel? input stdout style.record #[])

def dump [Logarithm] (world : World) (stdout : ο) (arguments : DumpArguments) : Task ο :=
  match world.load arguments.programPath with
  | .error error => ended stdout 1 (errorLine error.message)
  | .ok program =>
    let palette := .choose (world.colours arguments.colour)
    printed stdout (Utf8.encode (program.listing palette).toList) 0 ""

def check (world : World) (stdout : ο) (arguments : CheckArguments) : Task ο :=
  match world.load arguments.programPath with
  | .error error => ended stdout 1 (errorLine error.message)
  | .ok program =>
    let issues := program.issues
    ended stdout (if issues.isEmpty then 0 else 1)
      (String.join (issues.map fun issue => "warning: " ++ issue.message ++ "\n"))

/-- Starts the command that has been matched.  Without one, a program is run. -/
def ofMatches [Logarithm] (serializer : Serializer) (world : World) (stdout : ο)
    (found : Matches) : Task ο :=
  match found.command? with
  | some ("run", values) => run world stdout (.ofValues values)
  | some ("trace", values) => trace serializer world stdout (.ofValues values)
  | some ("dump", values) => dump world stdout (.ofValues values)
  | some ("check", values) => check world stdout (.ofValues values)
  | none => run world stdout (.ofValues found.values)
  | some _ => ended stdout 101 "unreachable command\n"

/-- What there is to do for arguments, once they are parsed. -/
def ofParsed [Logarithm] (serializer : Serializer) (world : World) (stdout : ο) :
    Parsed → Task ο
  | .answered response => printed stdout response.stdout response.exit response.stderr
  | .matched found => ofMatches serializer world stdout found

def advance (count : Nat) : Task ο → Task ο
  | .answered response => .answered response
  | .running execution => .running (execution.advance count)
  | .tracing listing execution => .tracing listing (execution.advance count)

def response? : Task ο → Option Response
  | .answered response => some response
  | .running execution => execution.result?.map execution.finishRun
  | .tracing listing execution => execution.result?.map (execution.finishTrace listing)

end Task

end LetterMachine.CommandLine
