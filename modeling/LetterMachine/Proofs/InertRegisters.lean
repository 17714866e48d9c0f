import LetterMachine.Proofs.Frame

/-!
# Registers that a program does not mention

A program comes to a register by its letter only.  A register that is not active at the start, and
whose letter does not occur in the program in either case, is never active, so a change of its
contents is seen by no instruction.  It keeps what it holds, and what it holds has no influence.
-/

namespace LetterMachine

namespace Letter

theorem ofLower?_upper (letter : Letter) : ofLower? letter.upper = none := by
  rcases letter with ⟨index⟩
  revert index
  decide

end Letter

namespace Instruction

theorem ofChar_eq_select_iff {c : Char} {letter : Letter} :
    ofChar c = .select letter ↔ c = letter.lower := by
  constructor
  · intro hselect
    rw [← symbol_ofChar c, hselect]
    rfl
  · rintro rfl
    simp [ofChar, Letter.ofLower?_lower]

theorem ofChar_eq_transfer_iff {c : Char} {letter : Letter} :
    ofChar c = .transfer letter ↔ c = letter.upper := by
  constructor
  · intro htransfer
    rw [← symbol_ofChar c, htransfer]
    rfl
  · rintro rfl
    simp [ofChar, Letter.ofLower?_upper, Letter.ofUpper?_upper]

end Instruction

namespace Program

/-- An instruction of the program selects the register or transfers to it. -/
def Mentions (program : Program) (letter : Letter) : Prop :=
  ∃ position, program.get? position = some (.select letter) ∨
    program.get? position = some (.transfer letter)

/-- A program mentions a register by its letter in either case. -/
theorem mentions_ofChars_iff {characters : List Char} {letter : Letter} :
    (ofChars characters).Mentions letter ↔
      letter.lower ∈ characters ∨ letter.upper ∈ characters := by
  have hget : ∀ position, (ofChars characters).get? position =
      characters[position]?.map Instruction.ofChar := by
    simp [get?, ofChars]
  simp only [Mentions, hget, Option.map_eq_some_iff, Instruction.ofChar_eq_select_iff,
    Instruction.ofChar_eq_transfer_iff, exists_eq_right, exists_or, List.mem_iff_getElem?]

end Program

namespace Workspace

variable {ι ο : Type}

/-- Gives a register other contents. -/
def Change.ofRegister (letter : Letter) (register : Register) : Change ι ι ο ο where
  bank := (·.set letter register)
  input := id
  output := id

theorem ofRegister_apply_self (workspace : Workspace ι ο) (letter : Letter) :
    (Change.ofRegister letter (workspace.bank.get letter)).apply workspace = workspace :=
  congrArg (Workspace.mk · _ _ _) (Bank.set_get_self workspace.bank letter)

theorem unseen_ofRegister [Source ι] [Sink ο] {workspace : Workspace ι ο}
    {instruction : Instruction} {letter : Letter} (hactive : letter ≠ workspace.active)
    (htarget : instruction ≠ .transfer letter) (register : Register) :
    (Change.ofRegister letter register).Unseen workspace instruction where
  active := Bank.leavesAlone_set hactive register
  target := by
    intro target heq
    apply Bank.leavesAlone_set
    rintro rfl
    exact htarget heq
  ask _ _ := rfl
  write _ _ := rfl

end Workspace

open Workspace

namespace Run

variable {ι ο : Type} [Source ι] [Sink ο] {program : Program} {letter : Letter} {run : Run ι ο}

/-- A register becomes active only where the program selects it. -/
theorem active_next_ne (hmentions : ¬program.Mentions letter)
    (hactive : run.workspace.active ≠ letter) :
    (run.next program).1.workspace.active ≠ letter := by
  obtain hsame | htake | hexecute := run.workspace_next program
  · rwa [hsame]
  · rwa [htake, active_takeCondition]
  · obtain ⟨instruction, hready, hexecute⟩ := hexecute
    rw [hexecute, active_execute]
    cases instruction with
    | select selected =>
        rintro rfl
        exact hmentions ⟨_, Or.inl hready.get?_eq⟩
    | _ => exact hactive

theorem active_after_ne (hmentions : ¬program.Mentions letter)
    (hactive : run.workspace.active ≠ letter) (count : Nat) :
    (run.after program count).workspace.active ≠ letter := by
  induction count with
  | zero => exact hactive
  | succ count ih =>
      rw [after_succ]
      exact active_next_ne hmentions ih

/-- What is in a register that is not mentioned makes no difference to a run. -/
theorem after_changed_ofRegister (hmentions : ¬program.Mentions letter)
    (hactive : run.workspace.active ≠ letter) (register : Register) (count : Nat) :
    (run.changed (.ofRegister letter register)).after program count =
      (run.after program count).changed (.ofRegister letter register) := by
  apply after_changed
  intro earlier _ instruction hready _
  apply unseen_ofRegister (active_after_ne hmentions hactive earlier).symm
  rintro rfl
  exact hmentions ⟨_, Or.inr hready.get?_eq⟩

theorem get_after_of_not_mentions (hmentions : ¬program.Mentions letter)
    (hactive : run.workspace.active ≠ letter) (count : Nat) :
    (run.after program count).workspace.bank.get letter = run.workspace.bank.get letter := by
  have hsame : run.changed (.ofRegister letter (run.workspace.bank.get letter)) = run :=
    congrArg (Run.mk · _ _ _) (ofRegister_apply_self run.workspace letter)
  have hafter := after_changed_ofRegister hmentions hactive (run.workspace.bank.get letter) count
  rw [hsame] at hafter
  rw [hafter]
  exact Bank.get_set_self _ _ _

/-- **A register that a program does not mention is inert.**  It holds in every state that a run
reaches what it held at the start.  Runs that start with other contents in it, and in no other
register, go on in the same way: they have the same status, control and active register, have
written and read the same, and have the same contents in all other registers. -/
theorem unmentioned_register_inert (program : Program) (letter : Letter) (machine : Machine)
    (input : ι) (output : ο) (hactive : machine.active ≠ letter)
    (hmentions : ¬program.Mentions letter) :
    (∀ count, ((machine.start input output).after program count).workspace.bank.get letter =
      machine.bank.get letter) ∧
    ∀ bank : Bank, (∀ other, other ≠ letter → bank.get other = machine.bank.get other) → ∀ count,
      let first := (machine.start input output).after program count
      let second := (Machine.start { machine with bank := bank } input output).after program count
      second.status = first.status ∧ second.control = first.control ∧
        second.workspace.active = first.workspace.active ∧
        second.workspace.input = first.workspace.input ∧
        second.workspace.output = first.workspace.output ∧
        ∀ other, other ≠ letter →
          second.workspace.bank.get other = first.workspace.bank.get other := by
  refine ⟨get_after_of_not_mentions hmentions hactive, ?_⟩
  intro bank hothers count first second
  have hstart : Machine.start { machine with bank := bank } input output =
      (machine.start input output).changed (.ofRegister letter (bank.get letter)) := by
    simp only [changed, Change.apply, Change.ofRegister, Machine.start,
      Bank.set_get_of_eq hothers, id]
  have hsecond : second = first.changed (.ofRegister letter (bank.get letter)) := by
    have hafter : ((machine.start input output).changed
        (.ofRegister letter (bank.get letter))).after program count = _ :=
      after_changed_ofRegister hmentions hactive (bank.get letter) count
    rw [← hstart] at hafter
    exact hafter
  rw [hsecond]
  refine ⟨rfl, rfl, rfl, rfl, rfl, ?_⟩
  intro other hother
  exact Bank.get_set_of_ne _ hother.symm _

/-- A program that works on two registers, and what it does not see in a third one. -/
theorem unmentioned_register_inert_beside_two :
    let program := Program.ofChars ['5', ':', 'B', 'b', '@']
    let letter : Letter := ⟨2⟩
    let machine : Machine := { bank := Bank.empty.set letter (.ofList [.integer 7]) }
    let first : Run ByteStream OutputBuffer := machine.start ⟨[], false⟩ {}
    let second : Run ByteStream OutputBuffer :=
      Machine.start { machine with bank := .empty } ⟨[], false⟩ {}
    machine.active ≠ letter ∧ ¬program.Mentions letter ∧
      (first.after program 5).workspace.bank.get letter = .ofList [.integer 7] ∧
      (first.after program 5).workspace.output.written = [5] ∧
      (second.after program 5).workspace.output = (first.after program 5).workspace.output := by
  intro program letter machine first second
  have hactive : machine.active ≠ letter := by decide
  have hmentions : ¬program.Mentions letter := by
    rw [Program.mentions_ofChars_iff]
    decide
  have hregister : machine.bank.get letter = .ofList [.integer 7] := Bank.get_set_self _ _ _
  have hothers : ∀ other, other ≠ letter → Bank.empty.get other = machine.bank.get other :=
    fun other hother => (Bank.get_set_of_ne _ hother.symm _).symm
  have hwritten : (first.after program 5).workspace.output.written = [5] := by decide
  subst first second
  obtain ⟨hkeeps, hsame⟩ := unmentioned_register_inert program letter machine
    (ByteStream.mk [] false) (OutputBuffer.mk none []) hactive hmentions
  obtain ⟨-, -, -, -, houtput, -⟩ := hsame Bank.empty hothers 5
  rw [hkeeps]
  exact ⟨hactive, hmentions, hregister, hwritten, houtput⟩

end Run

end LetterMachine
