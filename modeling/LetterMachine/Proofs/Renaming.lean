import LetterMachine.Proofs.InertRegisters
import Mathlib.Logic.Equiv.Defs

/-!
# Registers under other letters

No register is special.  If the letters of the registers are permuted, in the program as well as in
the machine that it starts on, every run goes on as it does under the old letters, and each register
holds under its new letter what it holds under its old one.  A letter of the program is renamed in
either case alike, as a selection and as the target of a transfer.
-/

namespace LetterMachine

namespace Letter

/-- The character with its letter renamed in the same case, if it is the letter of a register. -/
def renameChar (letters : Letter → Letter) (c : Char) : Char :=
  (((ofLower? c).map fun letter => (letters letter).lower).or
    ((ofUpper? c).map fun letter => (letters letter).upper)).getD c

end Letter

theorem Instruction.ofChar_renameChar (letters : Letter → Letter) (c : Char) :
    ofChar (Letter.renameChar letters c) = (ofChar c).rename letters := by
  cases hlower : Letter.ofLower? c with
  | some letter =>
      have hselect : ofChar c = .select letter :=
        ofChar_eq_select_iff.mpr (Letter.lower_of_ofLower? hlower).symm
      have hselect' : ofChar (letters letter).lower = .select (letters letter) :=
        ofChar_eq_select_iff.mpr rfl
      simpa [Letter.renameChar, hlower, hselect, rename] using hselect'
  | none =>
      cases hupper : Letter.ofUpper? c with
      | some letter =>
          have htransfer : ofChar c = .transfer letter :=
            ofChar_eq_transfer_iff.mpr (Letter.upper_of_ofUpper? hupper).symm
          have htransfer' : ofChar (letters letter).upper = .transfer (letters letter) :=
            ofChar_eq_transfer_iff.mpr rfl
          simpa [Letter.renameChar, hlower, hupper, htransfer, rename] using htransfer'
      | none =>
          -- Any other character stands for itself, and its instruction names no register.
          have hother : (ofChar c).rename letters = ofChar c := by
            cases hinstruction : ofChar c with
            | select letter =>
                obtain rfl := ofChar_eq_select_iff.mp hinstruction
                cases hlower.symm.trans (Letter.ofLower?_lower letter)
            | transfer letter =>
                obtain rfl := ofChar_eq_transfer_iff.mp hinstruction
                cases hupper.symm.trans (Letter.ofUpper?_upper letter)
            | _ => rfl
          simp [Letter.renameChar, hlower, hupper, hother]

namespace Program

/-- The program with the letters of its instructions renamed. -/
def rename (letters : Letter → Letter) (program : Program) : Program :=
  ⟨program.instructions.map (·.rename letters)⟩

theorem get?_rename (letters : Letter → Letter) (program : Program) (position : Nat) :
    (program.rename letters).get? position = (program.get? position).map (·.rename letters) := by
  simp [get?, rename]

/-- Renaming the letters of a program is renaming the letters in its text. -/
theorem rename_ofChars (letters : Letter → Letter) (characters : List Char) :
    (ofChars characters).rename letters = ofChars (characters.map (Letter.renameChar letters)) := by
  simp [ofChars, rename, Function.comp_def, Instruction.ofChar_renameChar]

end Program

namespace Bank

/-- The bank in which every register is found under its new letter. -/
def rename (names : Equiv.Perm Letter) (bank : Bank) : Bank :=
  ⟨Vector.ofFn fun index => bank.get (names.symm ⟨index⟩)⟩

theorem get_rename (names : Equiv.Perm Letter) (bank : Bank) (letter : Letter) :
    (bank.rename names).get letter = bank.get (names.symm letter) := by
  simp [rename, get]

theorem takes_rename (names : Equiv.Perm Letter) (letter : Letter) :
    Takes (rename names) letter (names letter) where
  get_eq bank := by rw [get_rename, names.symm_apply_apply]
  set_eq bank register := by
    apply ext
    intro place
    rw [get_rename]
    by_cases hplace : names letter = place
    · subst hplace
      rw [get_set_self, names.symm_apply_apply, get_set_self]
    · have hplace' : letter ≠ names.symm place := by
        rwa [ne_eq, Equiv.eq_symm_apply]
      rw [get_set_of_ne _ hplace, get_rename, get_set_of_ne _ hplace']

end Bank

/-- The machine with its registers renamed. -/
def Machine.rename (names : Equiv.Perm Letter) (machine : Machine) : Machine :=
  { machine with bank := machine.bank.rename names, active := names machine.active }

namespace Workspace

variable {ι ο : Type}

/-- Renames the registers, and leaves the source and the sink as they are. -/
def Image.ofNames (names : Equiv.Perm Letter) : Image ι ι ο ο where
  bank := Bank.rename names
  letter := names
  input := id
  output := id

theorem keeps_ofNames [Source ι] [Sink ο] (names : Equiv.Perm Letter) (workspace : Workspace ι ο)
    (instruction : Instruction) : (Image.ofNames names).Keeps workspace instruction where
  active := Bank.takes_rename names _
  target _ _ := Bank.takes_rename names _
  ask _ _ := rfl
  write _ _ := rfl

end Workspace

namespace Run

open Workspace

variable {ι ο : Type} [Source ι] [Sink ο]

/-- **The names of registers do not matter.**  To rename the letters of a program is to rename the
letters of its text, in either case.  A program whose letters are renamed, on a machine whose
registers are renamed in the same way, has at every point of its run the same status and control,
and has read and written the same.  The active register is the renamed one, and every register holds
under its new letter what it holds under its old letter without the renaming. -/
theorem after_rename (names : Equiv.Perm Letter) (program : Program) (machine : Machine)
    (input : ι) (output : ο) :
    (∀ characters, (Program.ofChars characters).rename names =
      .ofChars (characters.map (Letter.renameChar names))) ∧
    ∀ count,
      let first := (machine.start input output).after program count
      let second := ((machine.rename names).start input output).after (program.rename names) count
      second.status = first.status ∧ second.control = first.control ∧ second.limit = first.limit ∧
        second.workspace.input = first.workspace.input ∧
        second.workspace.output = first.workspace.output ∧
        second.workspace.active = names first.workspace.active ∧
        ∀ letter, second.workspace.bank.get (names letter) = first.workspace.bank.get letter := by
  refine ⟨Program.rename_ofChars names, ?_⟩
  intro count first second
  have hstart : (machine.rename names).start input output =
      (machine.start input output).imaged (.ofNames names) := rfl
  have hsecond : second = first.imaged (.ofNames names) := by
    have hget : ∀ position, (program.rename names).get? position = (program.get? position).map
        (·.rename (Image.ofNames names : Image ι ι ο ο).letter) := program.get?_rename names
    subst first second
    rw [hstart]
    exact after_imaged hget fun _ _ instruction _ _ => keeps_ofNames names _ instruction
  have hregister : ∀ letter, (first.workspace.bank.rename names).get (names letter) =
      first.workspace.bank.get letter :=
    fun letter => (Bank.takes_rename names letter).get_eq first.workspace.bank
  rw [hsecond]
  simp [Image.ofNames, hregister]

end Run

end LetterMachine
