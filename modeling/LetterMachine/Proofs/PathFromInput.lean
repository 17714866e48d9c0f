import LetterMachine.Proofs.Answers
import LetterMachine.Proofs.EncodedText
import LetterMachine.Proofs.IndexColumns
import LetterMachine.Proofs.PathArgument
import LetterMachine.Proofs.Readings

/-!
# A path from the standard input

A command that runs a program and comes without a path finds the path in the standard input.  That
is the same as to give the path among the arguments and only what follows it on the standard input:
the path is one token, and reading a token takes nothing of what stands behind it.
-/

namespace LetterMachine.CommandLine

/-- The same files and terminals, with another standard input. -/
def World.withStdin (world : World) (stdin : ByteStream) : World :=
  { world with stdin := stdin }

section Stdin

variable {world : World} {spaces rest : List UInt8} {broken : Bool} {path : String}

theorem encode_ne_nil (hpath : path ≠ "") : Utf8.encode path.toList ≠ [] := by
  intro hnil
  have htext := Utf8.decode_encode path.toList
  rw [hnil] at htext
  exact hpath (String.toList_inj.mp htext.symm)

/-- The first token is the path, and all that follows it is left. -/
theorem findsPath_of_token (world : World)
    (hspaces : ∀ byte ∈ spaces, isSpace byte = true) (hpath : path ≠ "")
    (htoken : ∀ byte ∈ Utf8.encode path.toList, isSpace byte = false)
    (hrest : ∀ byte ∈ rest.head?, isSpace byte = true) (hend : rest = [] → broken = false) :
    (world.withStdin ⟨spaces ++ Utf8.encode path.toList ++ rest, broken⟩).FindsPath none path
      ⟨rest, broken⟩ := by
  have hnonempty := encode_ne_nil hpath
  refine .read ?_
  change readProgramPath ⟨spaces ++ Utf8.encode path.toList ++ rest, broken⟩ = _
  rw [readProgramPath, ByteStream.readToken_append hspaces htoken hrest
    (fun hnil => absurd hnil hnonempty) hend, ByteStream.asToken_of_ne_nil hnonempty]
  simp only [Option.map_some, Utf8.decode_encode, String.ofList_toList]

theorem noPath_of_spaces (hspaces : ∀ byte ∈ spaces, isSpace byte = true) :
    (world.withStdin ⟨spaces, false⟩).NoPath none := by
  have hread : ByteStream.readToken ⟨spaces ++ [] ++ [], false⟩ = _ :=
    ByteStream.readToken_append hspaces (by simp) (by simp) (fun _ => rfl) fun _ => rfl
  rw [List.append_nil, List.append_nil] at hread
  exact ⟨rfl, congrArg Prod.fst hread⟩

end Stdin

section Commands

variable {ο : Type} [Device ο] [Logarithm] {serializer : Serializer} {world : World} {stdout : ο}
  {stdin rest : ByteStream} {path : String} {found : Matches}

/-- What a task runs, and what the program can read. -/
def Task.loaded? : Task ο → Option (Program × ByteStream)
  | .answered _ => none
  | .running execution => some (execution.program, execution.run.workspace.input)
  | .tracing _ execution => some (execution.program, execution.run.workspace.input)

/-- A command looks at its path and at the standard input for nothing but the program. -/
theorem ofMatches_of_findsPath (hasks : found.AsksForPath)
    (hfinds : (world.withStdin stdin).FindsPath none path rest) :
    Task.ofMatches serializer (world.withStdin stdin) stdout found =
      Task.ofMatches serializer (world.withStdin rest) stdout (found.withPath path) := by
  have hprepare : (world.withStdin stdin).prepare none =
      (world.withStdin rest).prepare (some path) := World.prepare_of_findsPath hfinds
  rcases found with ⟨_ | ⟨name, values⟩, others⟩
  · have hfree : others.programPath? = none := hasks
    simp only [Task.ofMatches, Matches.withPath, Task.run, RunArguments.ofValues, hfree, hprepare]
  · obtain ⟨rfl | rfl, hfree⟩ := hasks
    · simp only [Task.ofMatches, Matches.withPath, Task.run, RunArguments.ofValues, hfree,
        hprepare]
    · simp only [Task.ofMatches, Matches.withPath, Task.trace, TraceArguments.ofValues, hfree,
        hprepare]
      rfl

theorem loaded?_of_findsPath (hasks : found.AsksForPath)
    (hfinds : (world.withStdin stdin).FindsPath none path rest) {program : Program}
    (hload : world.load path = .ok program) :
    (Task.ofMatches serializer (world.withStdin stdin) stdout found).loaded? =
      some (program, rest) := by
  have hprepare : (world.withStdin stdin).prepare none = .ok (some (program, rest)) := by
    rw [World.prepare_of_findsPath hfinds]
    exact congrArg (Except.map _) hload
  rcases found with ⟨_ | ⟨name, values⟩, others⟩
  · have hfree : others.programPath? = none := hasks
    simp only [Task.ofMatches, Task.run, RunArguments.ofValues, hfree, hprepare]
    rfl
  · obtain ⟨rfl | rfl, hfree⟩ := hasks
    · simp only [Task.ofMatches, Task.run, RunArguments.ofValues, hfree, hprepare]
      rfl
    · simp only [Task.ofMatches, Task.trace, TraceArguments.ofValues, hfree, hprepare]
      rfl

theorem ofMatches_of_noPath (hasks : found.AsksForPath)
    (hnone : (world.withStdin stdin).NoPath none) :
    Task.ofMatches serializer (world.withStdin stdin) stdout found =
      .answered ⟨0, Device.output stdout, ""⟩ := by
  have hprepare := World.prepare_of_noPath hnone
  rcases found with ⟨_ | ⟨name, values⟩, others⟩
  · have hfree : others.programPath? = none := hasks
    simp only [Task.ofMatches, Task.run, RunArguments.ofValues, hfree, hprepare]
    rfl
  · obtain ⟨rfl | rfl, hfree⟩ := hasks
    · simp only [Task.ofMatches, Task.run, RunArguments.ofValues, hfree, hprepare]
      rfl
    · simp only [Task.ofMatches, Task.trace, TraceArguments.ofValues, hfree, hprepare]
      rfl

end Commands

/-- What it means that arguments which ask for a path find it at the beginning of the standard
input, behind white space.  What is to be done is given for a standard input and arguments. -/
structure TakesPathFrom {ο : Type} [Device ο] (parse : List String → Parsed) (world : World)
    (stdout : ο) (start : ByteStream → List String → Task ο) (arguments : List String)
    (spaces : List UInt8) (path : String) (rest : List UInt8) (broken : Bool) : Prop where
  /-- The same is done as if the path stood behind the arguments. -/
  task_eq : start ⟨spaces ++ Utf8.encode path.toList ++ rest, broken⟩ arguments =
    start ⟨rest, broken⟩ (withPath arguments path)
  /-- The path may stand anywhere among arguments that ask for the same. -/
  task_eq_of_parse : ∀ arguments', parse arguments' = (parse arguments).withPath path →
    start ⟨spaces ++ Utf8.encode path.toList ++ rest, broken⟩ arguments =
      start ⟨rest, broken⟩ arguments'
  /-- The first that the program can read is the white space that has ended the path. -/
  loaded?_eq : ∀ program, world.load path = .ok program →
    (start ⟨spaces ++ Utf8.encode path.toList ++ rest, broken⟩ arguments).loaded? =
      some (program, ⟨rest, broken⟩)
  /-- With nothing behind the white space there is nothing to do. -/
  nothing_to_do : start ⟨spaces, false⟩ arguments = .answered ⟨0, Device.output stdout, ""⟩

/-- **A path from the standard input is the same as a path among the arguments.** -/
theorem path_from_input {ο : Type} [Device ο] [Logarithm] {parse : List String → Parsed}
    (hparse : TakesPaths parse) (serializer : Serializer) (world : World) (stdout : ο)
    {arguments : List String} {spaces rest : List UInt8} {path : String} {broken : Bool}
    (hasks : (parse arguments).AsksForPath)
    (hspaces : ∀ byte ∈ spaces, isSpace byte = true) (hpath : path ≠ "")
    (htoken : ∀ byte ∈ Utf8.encode path.toList, isSpace byte = false)
    (hrest : ∀ byte ∈ rest.head?, isSpace byte = true) (hend : rest = [] → broken = false) :
    TakesPathFrom parse world stdout
      (fun stdin arguments =>
        Task.ofParsed serializer (world.withStdin stdin) stdout (parse arguments))
      arguments spaces path rest broken := by
  have hfinds := findsPath_of_token world hspaces hpath htoken hrest hend
  cases hfound : parse arguments with
  | answered response =>
      rw [hfound] at hasks
      cases hasks
  | matched found =>
      rw [hfound] at hasks
      have htask : ∀ arguments', parse arguments' = (parse arguments).withPath path →
          Task.ofParsed serializer
              (world.withStdin ⟨spaces ++ Utf8.encode path.toList ++ rest, broken⟩) stdout
              (parse arguments) =
            Task.ofParsed serializer (world.withStdin ⟨rest, broken⟩) stdout
              (parse arguments') := by
        intro arguments' harguments'
        rw [harguments', hfound]
        exact ofMatches_of_findsPath hasks hfinds
      exact {
        task_eq := htask _ (hparse.parse_withPath hpath (hfound ▸ hasks))
        task_eq_of_parse := htask
        loaded?_eq := by
          intro program hload
          rw [hfound]
          exact loaded?_of_findsPath hasks hfinds hload
        nothing_to_do := by
          rw [hfound]
          exact ofMatches_of_noPath hasks (noPath_of_spaces hspaces) }

/-- The path `help` is told from the command, and the program reads the line feed behind it. -/
theorem path_from_input_of_help :
    let world : World := { read := fun _ => .ok [0x63], stdin := ⟨[], false⟩ }
    TakesPathFrom parseArguments world ({} : OutputBuffer)
      (fun stdin arguments => @Task.ofParsed _ _ Logarithm.grid .standard (world.withStdin stdin) {}
        (parseArguments arguments))
      [] [0x20] "help" [0x0A, 0x37] false := by
  have hencode : Utf8.encode "help".toList = [0x68, 0x65, 0x6C, 0x70] := by decide
  intro world
  let := Logarithm.grid
  apply path_from_input takesPaths_parseArguments .standard world ({} : OutputBuffer)
  · decide
  · simp [isSpace]
  · decide
  · rw [hencode]
    simp [isSpace]
  · simp [isSpace]
  · nofun

end LetterMachine.CommandLine
