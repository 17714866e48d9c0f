import LetterMachine.Proofs.Images

/-!
# Changes that a run does not see

What instructions work on can be changed behind the back of a run: in a register that no instruction
comes to, or in bytes of the input that are not read.  A change is made to the registers, the source
and the sink, each for itself.  An instruction does not see it if the registers that the instruction
works on are left alone, and if the source answers and the sink takes what the instruction has for
them as they would without the change.  Such an instruction does after the change what it does
before it, and `Run.after_changed` carries this along whole runs.
-/

namespace LetterMachine

namespace Bank

/-- A change of banks leaves a register alone: its contents stay, and putting something there comes
to the same before the change and after it. -/
structure LeavesAlone (change : Bank → Bank) (letter : Letter) : Prop where
  get_eq : ∀ bank, (change bank).get letter = bank.get letter
  set_eq : ∀ bank register, (change bank).set letter register = change (bank.set letter register)

variable {letter other : Letter}

theorem LeavesAlone.takes {change : Bank → Bank} (halone : LeavesAlone change letter) :
    Takes change letter letter :=
  ⟨halone.get_eq, halone.set_eq⟩

theorem set_comm (hne : letter ≠ other) (bank : Bank) (register register' : Register) :
    (bank.set letter register).set other register' =
      (bank.set other register').set letter register := by
  apply ext
  intro place
  by_cases hletter : letter = place
  · subst hletter
    rw [get_set_of_ne _ hne.symm, get_set_self, get_set_self]
  · rw [get_set_of_ne (bank.set other register') hletter]
    by_cases hother : other = place
    · subst hother
      rw [get_set_self, get_set_self]
    · rw [get_set_of_ne _ hother, get_set_of_ne _ hother, get_set_of_ne _ hletter]

theorem leavesAlone_id (letter : Letter) : LeavesAlone id letter :=
  ⟨fun _ => rfl, fun _ _ => rfl⟩

theorem leavesAlone_set (hne : letter ≠ other) (register : Register) :
    LeavesAlone (·.set letter register) other :=
  ⟨fun bank => get_set_of_ne bank hne register, fun bank => set_comm hne bank register⟩

/-- Two banks that differ in one register become equal when its contents are copied. -/
theorem set_get_of_eq {bank bank' : Bank}
    (hothers : ∀ other, other ≠ letter → bank'.get other = bank.get other) :
    bank.set letter (bank'.get letter) = bank' := by
  apply ext
  intro place
  by_cases hletter : letter = place
  · subst hletter
    rw [get_set_self]
  · rw [get_set_of_ne _ hletter, hothers place (Ne.symm hletter)]

theorem set_get_self (bank : Bank) (letter : Letter) : bank.set letter (bank.get letter) = bank :=
  set_get_of_eq fun _ _ => rfl

end Bank

namespace Workspace

variable {ι κ ο π : Type}

/-- A change of what instructions work on, other than the choice of the active register. -/
structure Change (ι κ ο π : Type) where
  bank : Bank → Bank
  input : ι → κ
  output : ο → π

namespace Change

def apply (change : Change ι κ ο π) (workspace : Workspace ι ο) : Workspace κ π where
  bank := change.bank workspace.bank
  active := workspace.active
  input := change.input workspace.input
  output := change.output workspace.output

/-- A change as an image, in which every register stays under its letter. -/
def image (change : Change ι κ ο π) : Image ι κ ο π where
  bank := change.bank
  letter := id
  input := change.input
  output := change.output

variable [Source ι] [Source κ] [Sink ο] [Sink π]

/-- An instruction does not see a change: the registers that it works on are left alone, and the
source and the sink do what they would do without the change. -/
structure Unseen (change : Change ι κ ο π) (workspace : Workspace ι ο)
    (instruction : Instruction) : Prop where
  active : Bank.LeavesAlone change.bank workspace.active
  target : ∀ target, instruction = .transfer target → Bank.LeavesAlone change.bank target
  ask : ∀ reading ∈ workspace.reading? instruction,
    reading.ask (change.input workspace.input) =
      (reading.ask workspace.input).map id change.input
  write : ∀ bytes ∈ workspace.printing? instruction,
    Sink.write bytes (change.output workspace.output) =
      (Sink.write bytes workspace.output).map id change.output

theorem Unseen.keeps {change : Change ι κ ο π} {workspace : Workspace ι ο}
    {instruction : Instruction} (hunseen : change.Unseen workspace instruction) :
    change.image.Keeps workspace instruction where
  active := hunseen.active.takes
  target target heq := (hunseen.target target heq).takes
  ask := hunseen.ask
  write := hunseen.write

end Change

end Workspace

/-! ## Whole runs -/

namespace Run

open Workspace

variable {ι κ ο π : Type}

/-- The same run after a change of what instructions work on. -/
def changed (change : Change ι κ ο π) (run : Run ι ο) : Run κ π where
  workspace := change.apply run.workspace
  control := run.control
  limit := run.limit
  status := run.status

variable [Source ι] [Source κ] [Sink ο] [Sink π] {change : Change ι κ ο π} {program : Program}
  {run : Run ι ο}

/-- **A run goes on after changes as it does before them**, as long as no instruction sees them. -/
theorem after_changed {count : Nat}
    (hunseen : ∀ earlier < count, ∀ instruction,
      (run.after program earlier).Ready program instruction →
      (run.after program earlier).control.mode = .running →
      change.Unseen (run.after program earlier).workspace instruction) :
    (run.changed change).after program count = (run.after program count).changed change := by
  have hget : ∀ position, program.get? position =
      (program.get? position).map (·.rename change.image.letter) := by
    intro position
    cases program.get? position with
    | none => rfl
    | some instruction => exact congrArg some instruction.rename_id.symm
  have hafter : (run.imaged change.image).after program count = _ :=
    after_imaged hget fun earlier hlt instruction hready hmode =>
      (hunseen earlier hlt instruction hready hmode).keeps
  exact hafter

end Run

end LetterMachine
