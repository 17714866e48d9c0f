import LetterMachine.Trace

/-!
# Matched arguments

The arguments are parsed before anything is done, and what the parser has matched is a command and
the values of its options.  Each command takes from them what it needs.
-/

namespace LetterMachine.CommandLine

/-- What a process leaves behind when it has ended. -/
structure Response where
  exit : Nat
  stdout : List UInt8 := []
  stderr : String := ""
  deriving DecidableEq, Repr, Inhabited

/-- The values of the options of a command. -/
structure Values where
  programPath? : Option String := none
  fuel? : Option UInt64 := none
  colour? : Option String := none
  verbose : UInt8 := 0
  noResult : Bool := false
  deriving DecidableEq, Repr

/-- The values of a command, or those of the form without a command. -/
structure Matches where
  command? : Option (String × Values) := none
  values : Values := {}
  deriving DecidableEq, Repr

/-- What becomes of the arguments. -/
inductive Parsed where
  /-- They are faulty, or ask for something that the parser answers. -/
  | answered (response : Response)
  | matched (found : Matches)
  deriving DecidableEq, Repr

inductive Colour where
  | auto
  | always
  | never
  deriving DecidableEq, Repr

namespace Colour

def ofValues (values : Values) : Colour :=
  match values.colour? with
  | some "always" => .always
  | some "never" => .never
  | _ => .auto

/-- Whether to use colours.  The automatic choice is no colours unless the standard output and the
standard error are both a terminal. -/
def isOn (stdoutIsTerminal stderrIsTerminal : Bool) : Colour → Bool
  | .always => true
  | .never => false
  | .auto => stdoutIsTerminal && stderrIsTerminal

end Colour

structure RunArguments where
  programPath? : Option String
  fuel? : Option UInt64

def RunArguments.ofValues (values : Values) : RunArguments where
  programPath? := values.programPath?
  fuel? := values.fuel?

structure TraceArguments where
  programPath? : Option String
  verbosity : Verbosity
  noResult : Bool
  fuel? : Option UInt64
  colour : Colour

def TraceArguments.ofValues (values : Values) : TraceArguments where
  programPath? := values.programPath?
  verbosity := .ofCount values.verbose.toNat
  noResult := values.noResult
  fuel? := values.fuel?
  colour := .ofValues values

/-- The path that a command cannot do without.  No parser leaves it out. -/
def Values.requiredPath (values : Values) : String :=
  values.programPath?.getD ""

structure DumpArguments where
  programPath : String
  colour : Colour

def DumpArguments.ofValues (values : Values) : DumpArguments where
  programPath := values.requiredPath
  colour := .ofValues values

structure CheckArguments where
  programPath : String

def CheckArguments.ofValues (values : Values) : CheckArguments where
  programPath := values.requiredPath

end LetterMachine.CommandLine
