import LetterMachine.CommandLine.Matches
import LetterMachine.Text.Utf8

/-!
# A parser for arguments

A command name counts only as the very first argument; without one, the arguments ask for a program
to be run.  Options stand anywhere before `--`, and each command has its own.  Arguments are read
from left to right, and the first fault is the one reported, unless the version or help has been
asked for before it.
-/

namespace LetterMachine.CommandLine

inductive Command where
  | run
  | trace
  | dump
  | check
  deriving DecidableEq, Repr

inductive OptionName where
  | fuel
  | colour
  | verbose
  | noResult
  | version
  | help
  deriving DecidableEq, Repr

inductive UsageError where
  | unknownOption (option : String)
  | unknownCommand (command : String)
  | unexpectedArgument (argument : String)
  | missingValue (option : OptionName)
  | unexpectedValue (option : OptionName)
  | invalidValue (option : OptionName) (value : String)
  | repeated (option : OptionName)
  | emptyPath
  | missingPath
  deriving DecidableEq, Repr

/-- Why the reading of arguments stops early. -/
inductive Stop where
  | usage (error : UsageError)
  | version
  | help
  deriving DecidableEq, Repr

namespace Command

def text : Command → String
  | .run => "run"
  | .trace => "trace"
  | .dump => "dump"
  | .check => "check"

def ofName? : String → Option Command
  | "run" => some .run
  | "trace" => some .trace
  | "dump" => some .dump
  | "check" => some .check
  | _ => none

end Command

namespace OptionName

def ofLongName? : List Char → Option OptionName
  | ['f', 'u', 'e', 'l'] => some .fuel
  | ['c', 'o', 'l', 'o', 'r'] => some .colour
  | ['n', 'o', '-', 'r', 'e', 's', 'u', 'l', 't'] => some .noResult
  | ['v', 'e', 'r', 's', 'i', 'o', 'n'] => some .version
  | ['h', 'e', 'l', 'p'] => some .help
  | _ => none

def ofShortName? : Char → Option OptionName
  | 'v' => some .verbose
  | 'V' => some .version
  | 'h' => some .help
  | _ => none

def text : OptionName → String
  | .fuel => "--fuel"
  | .colour => "--color"
  | .verbose => "-v"
  | .noResult => "--no-result"
  | .version => "--version"
  | .help => "--help"

def takesValue : OptionName → Bool
  | .fuel | .colour => true
  | .verbose | .noResult | .version | .help => false

/-- Whether a command, or the form without a command name, has the option. -/
def belongsTo (command? : Option Command) (option : OptionName) : Bool :=
  option == .help ||
    match command? with
    | none => option == .fuel || option == .version
    | some .run => option == .fuel
    | some .trace => option != .version
    | some .dump => option == .colour
    | some .check => false

end OptionName

/-- An argument by its form alone. -/
inductive Argument where
  | endOfOptions
  | long (name : List Char) (value? : Option (List Char))
  | short (names : List Char)
  | positional
  deriving DecidableEq, Repr

/-- A single hyphen is a positional argument. -/
def Argument.ofText : List Char → Argument
  | ['-', '-'] => .endOfOptions
  | '-' :: '-' :: text =>
    match text.dropWhile (· != '=') with
    | [] => .long text none
    | _ :: value => .long (text.takeWhile (· != '=')) (some value)
  | ['-'] => .positional
  | '-' :: names => .short names
  | _ => .positional

/-- An unsigned number of sixty-four bits: digits, with or without a plus sign before them. -/
def unsigned? (text : List Char) : Option UInt64 :=
  let digits := match text with
    | '+' :: rest => rest
    | _ => text
  let number := Decimal.value digits
  if !digits.isEmpty && digits.all Char.isDigit && number < UInt64.size then some (.ofNat number)
  else none

namespace Values

def setPath (values : Values) (path : String) : Except Stop Values :=
  if values.programPath?.isSome then .error (.usage (.unexpectedArgument path))
  else if path.isEmpty then .error (.usage .emptyPath)
  else .ok { values with programPath? := some path }

def setFuel (values : Values) (text : String) : Except Stop Values :=
  match unsigned? text.toList with
  | none => .error (.usage (.invalidValue .fuel text))
  | some fuel =>
    if values.fuel?.isSome then .error (.usage (.repeated .fuel))
    else .ok { values with fuel? := some fuel }

def setColour (values : Values) (text : String) : Except Stop Values :=
  if text ∉ ["auto", "always", "never"] then .error (.usage (.invalidValue .colour text))
  else if values.colour?.isSome then .error (.usage (.repeated .colour))
  else .ok { values with colour? := some text }

/-- Gives an option its value. -/
def setValue (values : Values) (option : OptionName) (value : String) : Except Stop Values :=
  match option with
  | .fuel => values.setFuel value
  | .colour => values.setColour value
  | _ => .error (.usage (.unexpectedValue option))

/-- Notes an option without a value.  Only the one for more detail may be repeated. -/
def setFlag (values : Values) (option : OptionName) : Except Stop Values :=
  match option with
  | .verbose =>
    .ok { values with verbose := if values.verbose = 255 then 255 else values.verbose + 1 }
  | .noResult =>
    if values.noResult then .error (.usage (.repeated option))
    else .ok { values with noResult := true }
  | .version => .error .version
  | .help => .error .help
  | .fuel | .colour => .error (.usage (.missingValue option))

/-- Notes the options named by the letters of one argument. -/
def setShort (command? : Option Command) (values : Values) : List Char → Except Stop Values
  | [] => .ok values
  | letter :: letters =>
    match (OptionName.ofShortName? letter).filter (OptionName.belongsTo command?) with
    | none => .error (.usage (.unknownOption (String.ofList ['-', letter])))
    | some option => do setShort command? (← values.setFlag option) letters

end Values

/-- Reads arguments from left to right, where `awaited?` is the option whose value comes next. -/
def gather (command? : Option Command) (awaited? : Option OptionName) (values : Values) :
    List String → Except Stop Values
  | [] =>
    match awaited? with
    | some option => .error (.usage (.missingValue option))
    | none => .ok values
  | text :: rest =>
    match awaited?, Argument.ofText text.toList with
    | some option, .positional => do gather command? none (← values.setValue option text) rest
    | some option, _ => .error (.usage (.missingValue option))
    | none, .positional => do gather command? none (← values.setPath text) rest
    | none, .endOfOptions => rest.foldlM Values.setPath values
    | none, .short letters => do gather command? none (← values.setShort command? letters) rest
    | none, .long name value? =>
      match (OptionName.ofLongName? name).filter (OptionName.belongsTo command?), value? with
      | none, _ => .error (.usage (.unknownOption text))
      | some option, some value => do
        gather command? none (← values.setValue option (String.ofList value)) rest
      | some option, none =>
        if option.takesValue then gather command? (some option) values rest
        else do gather command? none (← values.setFlag option) rest

/-- What is matched when the arguments of a command have been read. -/
def Matches.ofValues (command? : Option Command) (values : Values) : Except Stop Matches :=
  match command? with
  | none => .ok ⟨none, values⟩
  | some command =>
    if (command = .dump ∨ command = .check) ∧ values.programPath? = none then
      .error (.usage .missingPath)
    else
      .ok ⟨some (command.text, values), {}⟩

/-- The names that are no path as the first argument. -/
def reservedNames : List String :=
  ["run", "trace", "dump", "check", "help"]

/-- Reads all arguments. -/
def readArguments : List String → Except Stop Matches
  | "help" :: [] => .error .help
  | "help" :: name :: _ =>
    .error (if name ∈ reservedNames then .help else .usage (.unknownCommand name))
  | arguments => do
    let command? := arguments.head?.bind Command.ofName?
    let rest := if command?.isSome then arguments.drop 1 else arguments
    Matches.ofValues command? (← gather command? none {} rest)

def versionText : String := "quill 0.1.0\n"

def helpText : String :=
  "Interpreter for a one-character-per-instruction register language\n\n" ++
    "Usage:\n  quill [FILE] [--fuel <N>]\n  quill <COMMAND>\n"

def UsageError.message : UsageError → String
  | .unknownOption option => "unknown option '" ++ option ++ "'"
  | .unknownCommand command => "unknown command '" ++ command ++ "'"
  | .unexpectedArgument argument => "unexpected argument '" ++ argument ++ "'"
  | .missingValue option => "a value is required for '" ++ option.text ++ "'"
  | .unexpectedValue option => "no value is allowed for '" ++ option.text ++ "'"
  | .invalidValue option value => "invalid value '" ++ value ++ "' for '" ++ option.text ++ "'"
  | .repeated option => "the option '" ++ option.text ++ "' cannot be repeated"
  | .emptyPath => "the path must not be empty"
  | .missingPath => "a path is required"

def Stop.response : Stop → Response
  | .usage error => ⟨2, [], "error: " ++ error.message ++ "\n"⟩
  | .version => ⟨0, Utf8.encode versionText.toList, ""⟩
  | .help => ⟨0, Utf8.encode helpText.toList, ""⟩

/-- The parser. -/
def parseArguments (arguments : List String) : Parsed :=
  match readArguments arguments with
  | .ok found => .matched found
  | .error stop => .answered stop.response

end LetterMachine.CommandLine
