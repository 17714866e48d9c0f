import LetterMachine.Proofs.Changes
import LetterMachine.Proofs.InputOutput

/-!
# What an instruction leaves as it is

But for a selection and a transfer, all that an instruction does to the registers is to put
something into the active one, and it turns to the source once at most; `Workspace.Leaves` says so.
Every register that is neither active nor the target of a transfer therefore keeps its contents, and
the choice of the active register changes with a selection only.
-/

namespace LetterMachine

theorem Bank.set_set (bank : Bank) (letter : Letter) (register register' : Register) :
    (bank.set letter register).set letter register' = bank.set letter register' := by
  apply ext
  intro place
  by_cases hletter : letter = place
  · subst hletter
    rw [get_set_self, get_set_self]
  · rw [get_set_of_ne _ hletter, get_set_of_ne _ hletter, get_set_of_ne _ hletter]

/-- The register that an instruction makes the active one. -/
def Instruction.selected? : Instruction → Option Letter
  | .select letter => some letter
  | _ => none

namespace Workspace

variable {ι ο : Type} (workspace : Workspace ι ο)

theorem put_contents : workspace.put workspace.contents = workspace :=
  congrArg (Workspace.mk · _ _ _) (Bank.set_get_self workspace.bank workspace.active)

/-- Nothing is put anywhere if the contents of the active register are put where they are. -/
theorem exists_eq_put : ∃ register, workspace = workspace.put register :=
  ⟨workspace.contents, workspace.put_contents.symm⟩

theorem exists_put_of_takeCondition :
    ∃ register, workspace.takeCondition.2 = workspace.put register := by
  unfold takeCondition
  split
  · exact workspace.exists_eq_put
  · exact ⟨_, rfl⟩

theorem active_takeCondition : workspace.takeCondition.2.active = workspace.active := by
  obtain ⟨register, hput⟩ := workspace.exists_put_of_takeCondition
  rw [hput]
  rfl

theorem input_takeCondition : workspace.takeCondition.2.input = workspace.input := by
  obtain ⟨register, hput⟩ := workspace.exists_put_of_takeCondition
  rw [hput]
  rfl

theorem exists_put_of_afterReading {result : Type}
    {use : Workspace ι ο → result → Workspace ι ο} (reading : Except Fault result × ι)
    (huse : ∀ workspace result, ∃ register, use workspace result = workspace.put register) :
    ∃ register, (workspace.afterReading reading use).1 =
      { workspace with input := reading.2 }.put register := by
  obtain ⟨outcome, input⟩ := reading
  cases outcome with
  | ok result => exact huse { workspace with input := input } result
  | error fault => exact exists_eq_put { workspace with input := input }

/-- The source after an instruction. -/
def inputAfter [Source ι] (instruction : Instruction) : ι :=
  ((workspace.reading? instruction).map fun reading =>
    (reading.ask workspace.input).2).getD workspace.input

theorem exists_put_of_read [Source ι] (form : ReadForm) :
    ∃ register, (workspace.read form).1 =
      { workspace with input := workspace.inputAfter (.read form) }.put register := by
  cases form with
  | number | byte => exact exists_put_of_afterReading _ _ fun _ _ => ⟨_, rfl⟩
  | text =>
      rcases hpop : workspace.contents.popFront? with _ | ⟨delimiter, rest⟩
      · simp only [read, readText, inputAfter, reading?, hpop]
        exact workspace.exists_eq_put
      · simp only [read, readText, inputAfter, reading?, hpop, Option.map_some, Option.getD_some]
        split
        all_goals
          obtain ⟨register, hput⟩ := exists_put_of_afterReading _ _ fun _ _ => ⟨_, rfl⟩
          exact ⟨register, hput.trans (congrArg (Workspace.mk · _ _ _) (Bank.set_set ..))⟩

/-- What an instruction makes of a workspace.  But for a selection and a transfer, it puts something
into the active register. -/
inductive Leaves [Source ι] : Instruction → Workspace ι ο → Prop where
  | select (letter : Letter) : Leaves (.select letter) { workspace with active := letter }
  | transfer (target : Letter) : Leaves (.transfer target) (workspace.transfer target)
  | put {instruction : Instruction} (hselected : instruction.selected? = none)
      (register : Register) (output : ο) :
      Leaves instruction
        ({ workspace with
          input := workspace.inputAfter instruction
          output := output }.put register)

theorem leaves_self [Source ι] {instruction : Instruction}
    (hselected : instruction.selected? = none)
    (hreading : workspace.reading? instruction = none) :
    workspace.Leaves instruction workspace := by
  have hinput : workspace.inputAfter instruction = workspace.input := by
    rw [inputAfter, hreading]
    rfl
  have hleaves : workspace.Leaves instruction _ :=
    .put hselected workspace.contents workspace.output
  rw [hinput] at hleaves
  have hput := workspace.put_contents
  rwa [hput] at hleaves

/-- **An instruction leaves one of these.** -/
theorem leaves_execute [Source ι] [Sink ο] (instruction : Instruction) :
    workspace.Leaves instruction (workspace.execute instruction).1 := by
  cases instruction with
  | select letter => exact .select letter
  | transfer target => exact .transfer target
  | digit value => exact .put rfl _ workspace.output
  | shuffle kind =>
      simp only [execute, shuffle]
      split
      · exact .put rfl _ workspace.output
      · exact workspace.leaves_self rfl rfl
  | operate operator =>
      simp only [execute, operate]
      split
      · exact workspace.leaves_self rfl rfl
      · split
        · exact .put rfl _ workspace.output
        · exact workspace.leaves_self rfl rfl
  | not =>
      simp only [execute, negate]
      split
      · exact workspace.leaves_self rfl rfl
      · exact .put rfl _ workspace.output
  | print form =>
      rcases hpop : workspace.contents.popFront? with _ | ⟨value, rest⟩
      · simp only [execute, print, hpop]
        exact workspace.leaves_self rfl rfl
      · rw [execute, print_of_popFront? _ _ hpop]
        exact .put rfl rest _
  | read form =>
      obtain ⟨register, hput⟩ := workspace.exists_put_of_read form
      rw [execute, hput]
      exact .put rfl register workspace.output
  | loopOpen | loopClose | leave | nop => exact workspace.leaves_self rfl rfl

section Consequences

variable [Source ι] [Sink ο] (instruction : Instruction)

/-- Only a selection changes the active register. -/
theorem active_execute : (workspace.execute instruction).1.active =
    instruction.selected?.getD workspace.active := by
  have hleaves := workspace.leaves_execute instruction
  generalize (workspace.execute instruction).1 = after at hleaves
  cases hleaves with
  | select letter => rfl
  | transfer target =>
      unfold transfer
      split <;> rfl
  | put hselected =>
      rw [hselected]
      rfl

theorem input_execute :
    (workspace.execute instruction).1.input = workspace.inputAfter instruction := by
  have hleaves := workspace.leaves_execute instruction
  generalize (workspace.execute instruction).1 = after at hleaves
  cases hleaves with
  | select letter => rfl
  | transfer target =>
      unfold transfer
      split <;> rfl
  | put => rfl

end Consequences

variable {workspace} {letter : Letter}

theorem get_put_of_ne (hactive : letter ≠ workspace.active) (register : Register) :
    (workspace.put register).bank.get letter = workspace.bank.get letter :=
  Bank.get_set_of_ne _ hactive.symm register

theorem get_takeCondition (hactive : letter ≠ workspace.active) :
    workspace.takeCondition.2.bank.get letter = workspace.bank.get letter := by
  obtain ⟨register, hput⟩ := workspace.exists_put_of_takeCondition
  rw [hput, get_put_of_ne hactive]

theorem get_transfer {target : Letter} (hactive : letter ≠ workspace.active)
    (htarget : letter ≠ target) :
    (workspace.transfer target).bank.get letter = workspace.bank.get letter := by
  unfold transfer Bank.transfer?
  cases (workspace.bank.get workspace.active).popFront? with
  | none => rfl
  | some taken =>
      simp only [Option.map_some, Bank.push]
      rw [Bank.get_set_of_ne _ htarget.symm, Bank.get_set_of_ne _ hactive.symm]

/-- A register that is neither active nor the target of a transfer keeps its contents. -/
theorem get_execute [Source ι] [Sink ο] {instruction : Instruction}
    (hactive : letter ≠ workspace.active) (htarget : instruction ≠ .transfer letter) :
    (workspace.execute instruction).1.bank.get letter = workspace.bank.get letter := by
  have hleaves := workspace.leaves_execute instruction
  generalize (workspace.execute instruction).1 = after at hleaves
  cases hleaves with
  | select => rfl
  | transfer target =>
      apply get_transfer hactive
      rintro rfl
      exact htarget rfl
  | put _ register => exact get_put_of_ne hactive register

end Workspace

/-- A transition leaves the workspace as it is, takes the condition of a loop, or executes an
instruction. -/
theorem Run.workspace_next {ι ο : Type} [Source ι] [Sink ο] (program : Program) (run : Run ι ο) :
    (run.next program).1.workspace = run.workspace ∨
      (run.next program).1.workspace = run.workspace.takeCondition.2 ∨
      ∃ instruction, run.Ready program instruction ∧
        (run.next program).1.workspace = (run.workspace.execute instruction).1 := by
  have htransition := run.next_transition program
  generalize run.next program = next at htransition
  cases htransition with
  | enter _ _ htake | pass _ _ htake =>
      right
      left
      rw [htake]
  | plain hready _ _ hexecute | mishap hready _ _ hexecute =>
      right
      right
      exact ⟨_, hready, (congrArg Prod.fst hexecute).symm⟩
  | _ =>
      left
      rfl

end LetterMachine
