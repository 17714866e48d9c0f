import LetterMachine.Proofs.IntegersOnly
import LetterMachine.Proofs.StraightLine
import Mathlib.Logic.Function.Basic

/-!
# Arithmetic modulo 2 ^ 64

A program that does nothing but move values about, add, subtract and multiply can be run over
unbounded integers as well: `ExactMachine` does so, with one list of integers for each register.
Sums, differences and products overflow as often as they like on the way, but reducing the integers
to 64 bits commutes with every instruction, so that the run of the machine holds the reductions of
what the exact one holds.
-/

namespace LetterMachine

/-! ## The exact machine -/

/-- Whether an instruction makes no use of what a value is beyond sums, differences and products. -/
def Instruction.isModular : Instruction → Bool
  | .select _ | .transfer _ | .digit _ | .shuffle _ | .nop _ => true
  | .operate .add | .operate .sub | .operate .mul => true
  | _ => false

/-- The rearrangement of a list.  One that is too short stays as it is. -/
def Shuffle.onList {α : Type} : Shuffle → List α → List α
  | .dup, a :: rest => a :: a :: rest
  | .swap, b :: a :: rest => a :: b :: rest
  | .backToFront, values => values.getLast?.toList ++ values.dropLast
  | .frontToBack, a :: rest => rest ++ [a]
  | .drop, _ :: rest => rest
  | _, values => values

/-- Sums, differences and products of unbounded integers. -/
def Operator.exact? : Operator → Option (Int → Int → Int)
  | .add => some (· + ·)
  | .sub => some (· - ·)
  | .mul => some (· * ·)
  | _ => none

/-- A machine whose registers hold unbounded integers, from the front to the back. -/
structure ExactMachine where
  registers : Letter → List Int
  active : Letter

namespace ExactMachine

def values (machine : ExactMachine) : List Int :=
  machine.registers machine.active

def put (machine : ExactMachine) (letter : Letter) (values : List Int) : ExactMachine :=
  { machine with registers := Function.update machine.registers letter values }

def transfer (machine : ExactMachine) (target : Letter) : ExactMachine :=
  match machine.values with
  | [] => machine
  | a :: rest =>
    let taken := machine.put machine.active rest
    taken.put target (a :: taken.registers target)

def operate (machine : ExactMachine) (operator : Operator) : ExactMachine :=
  match operator.exact?, machine.values with
  | some exact, right :: left :: rest => machine.put machine.active (exact left right :: rest)
  | _, _ => machine

/-- Executes an instruction over unbounded integers. -/
def execute (machine : ExactMachine) : Instruction → ExactMachine
  | .select letter => { machine with active := letter }
  | .transfer target => machine.transfer target
  | .digit value => machine.put machine.active ((value : Nat) :: machine.values)
  | .shuffle kind => machine.put machine.active (kind.onList machine.values)
  | .operate operator => machine.operate operator
  | _ => machine

def executeAll (machine : ExactMachine) (instructions : List Instruction) : ExactMachine :=
  instructions.foldl execute machine

/-- The integers that a machine starts on. -/
def ofMachine (machine : Machine) : ExactMachine where
  registers letter := (machine.bank.get letter).toList.map (·.toInt64.toInt)
  active := machine.active

end ExactMachine

/-! ## Reduction -/

/-- The value of an integer reduced to 64 bits. -/
def Value.reduced (number : Int) : Value :=
  .integer (.ofInt number)

/-- A value is the two's complement reduction of an unbounded integer to 64 bits. -/
def Value.Reduces (value : Value) (number : Int) : Prop :=
  ∃ whole : Int64, value = .integer whole ∧ whole.toInt = number.bmod (2 ^ 64)

theorem Value.reduces_reduced (number : Int) : (reduced number).Reduces number :=
  ⟨.ofInt number, rfl, Int64.toInt_ofInt⟩

theorem Value.reduced_toInt {value : Value} (hinteger : value.isInteger = true) :
    reduced value.toInt64.toInt = value := by
  obtain ⟨number, rfl⟩ := exists_of_isInteger hinteger
  exact congrArg integer (Int64.ofInt_toInt number)

theorem Shuffle.onList_map {α β : Type} (f : α → β) (kind : Shuffle) (values : List α) :
    kind.onList (values.map f) = (kind.onList values).map f := by
  cases kind with
  | swap => rcases values with _ | ⟨b, _ | ⟨a, rest⟩⟩ <;> rfl
  | backToFront =>
      rw [onList, onList, List.getLast?_map, List.map_append, List.map_dropLast]
      cases values.getLast? <;> rfl
  | dup | frontToBack | drop => cases values <;> simp [onList]

/-- The result on reduced operands is the exact one reduced. -/
theorem Operator.result?_reduced {operator : Operator} {exact : Int → Int → Int}
    (hexact : operator.exact? = some exact) (left right : Int) :
    operator.result? (.reduced left) (.reduced right) = some (.reduced (exact left right)) := by
  cases operator with
  | add | sub | mul =>
      cases hexact
      simp [result?, Value.combine, Value.reduced]
  | _ => cases hexact

namespace Bank

/-- The bank with given registers. -/
def ofFn (registers : Letter → Register) : Bank :=
  ⟨Vector.ofFn fun index => registers ⟨index⟩⟩

@[simp]
theorem get_ofFn (registers : Letter → Register) (letter : Letter) :
    (ofFn registers).get letter = registers letter := by
  simp [ofFn, get]

theorem set_ofFn (registers : Letter → Register) (letter : Letter) (register : Register) :
    (ofFn registers).set letter register = ofFn (Function.update registers letter register) := by
  apply ext
  intro place
  by_cases hletter : letter = place
  · subst hletter
    simp
  · rw [get_set_of_ne _ hletter, get_ofFn, get_ofFn, Function.update_of_ne (Ne.symm hletter)]

end Bank

namespace Workspace

variable {ι ο : Type}

theorem Rearranges.eq_onList {kind : Shuffle} {values left : List Value}
    (hrearranges : Rearranges kind values left) : left = kind.onList values := by
  cases hrearranges with
  | backToFront rest last => simp [Shuffle.onList]
  | dup | swap | frontToBack | drop => rfl

/-- A list that is too short for a rearrangement stays as it is. -/
theorem onList_of_starved {kind : Shuffle} {values : List Value}
    (hstarved : values.length < (Instruction.shuffle kind).needs) :
    kind.onList values = values := by
  cases kind with
  | swap =>
      match values with
      | [] | [a] => rfl
      | b :: a :: rest => exact absurd hstarved (by simp [Instruction.needs])
  | dup | backToFront | frontToBack | drop =>
      rw [List.eq_nil_of_length_eq_zero (Nat.lt_one_iff.mp hstarved)]
      rfl

/-- A rearrangement of the active register is that of the list of its values. -/
theorem shuffle_eq_withValues (workspace : Workspace ι ο) (kind : Shuffle) :
    workspace.shuffle kind =
      workspace.withValues workspace.active (kind.onList workspace.values) := by
  by_cases hneeds : (Instruction.shuffle kind).needs ≤ workspace.values.length
  · obtain ⟨left, hleft, hrearrange⟩ := exists_rearranges hneeds
    rw [shuffle, hrearrange, ← hleft.eq_onList]
    rfl
  · have hstarved := Nat.lt_of_not_le hneeds
    rw [shuffle, rearrange?_of_starved hstarved, onList_of_starved hstarved, withValues_values]

end Workspace

namespace ExactMachine

variable {ι ο : Type}

/-- The integers of an exact machine, reduced, as registers to work on. -/
def reduced (machine : ExactMachine) (input : ι) (output : ο) : Workspace ι ο where
  bank := .ofFn fun letter => .ofList ((machine.registers letter).map .reduced)
  active := machine.active
  input := input
  output := output

variable (machine : ExactMachine) (input : ι) (output : ο)

theorem values_reduced : (machine.reduced input output).values = machine.values.map .reduced := by
  simp [Workspace.values, Workspace.contents, reduced, values]

theorem reduced_put (letter : Letter) (values : List Int) :
    (machine.put letter values).reduced input output =
      (machine.reduced input output).withValues letter (values.map .reduced) := by
  simp only [reduced, Workspace.withValues, Bank.set_ofFn, put]
  congr 2
  funext place
  by_cases hplace : place = letter
  · subst hplace
    rw [Function.update_self, Function.update_self]
  · rw [Function.update_of_ne hplace, Function.update_of_ne hplace]

theorem transfer_reduced (target : Letter) :
    (machine.reduced input output).transfer target =
      (machine.transfer target).reduced input output := by
  have hreduced := machine.values_reduced input output
  cases hvalues : machine.values with
  | nil =>
      rw [hvalues, List.map_nil] at hreduced
      rw [Workspace.transfer_of_starved (by simp [hreduced]), transfer, hvalues]
  | cons a rest =>
      rw [hvalues, List.map_cons] at hreduced
      have htaken := machine.reduced_put input output machine.active rest
      rw [Workspace.transfer_of_values hreduced, transfer, hvalues]
      simp only [reduced_put _ _ _ target, List.map_cons]
      generalize machine.put machine.active rest = taken at htaken
      have hpush : (taken.reduced input output).bank.push target (.reduced a) =
          (taken.reduced input output).bank.set target
            (.ofList (.reduced a :: (taken.registers target).map .reduced)) := by
        rw [Bank.push, reduced, Bank.get_ofFn, Deque.pushFront_ofList]
      rw [htaken] at hpush ⊢
      exact congrArg (Workspace.mk · _ _ _) hpush

theorem operate_reduced {operator : Operator}
    (hmodular : (Instruction.operate operator).isModular = true) :
    (machine.reduced input output).operate operator =
      ((machine.operate operator).reduced input output, none) := by
  obtain ⟨exact, hexact⟩ : ∃ exact, operator.exact? = some exact := by
    cases operator <;> first | exact ⟨_, rfl⟩ | cases hmodular
  have hreduced := machine.values_reduced input output
  match hvalues : machine.values with
  | [] | [a] =>
      rw [hvalues] at hreduced
      have hstarved : (machine.reduced input output).values.length < 2 := by simp [hreduced]
      simp only [Workspace.operate, Workspace.takePair?_of_starved hstarved, operate, hexact,
        hvalues]
  | right :: left :: rest =>
      rw [hvalues, List.map_cons, List.map_cons] at hreduced
      simp only [Workspace.operate, Workspace.contents_of_values hreduced,
        Register.takePair?_ofList_cons_cons, Operator.result?_reduced hexact, operate, hexact,
        hvalues, reduced_put, List.map_cons, Deque.pushFront_ofList]
      rfl

/-- **Reduction commutes with every instruction**, and none of them fails. -/
theorem execute_reduced [Source ι] [Sink ο] {instruction : Instruction}
    (hmodular : instruction.isModular = true) :
    (machine.reduced input output).execute instruction =
      ((machine.execute instruction).reduced input output, none) := by
  have hreduced := machine.values_reduced input output
  cases instruction with
  | select | nop => rfl
  | transfer target => exact congrArg (·, none) (machine.transfer_reduced input output target)
  | digit value =>
      rw [Workspace.execute, Workspace.push_eq_withValues, hreduced, execute, reduced_put,
        List.map_cons, Value.reduced, Int64.ofInt_eq_ofNat]
      rfl
  | shuffle kind =>
      rw [Workspace.execute, Workspace.shuffle_eq_withValues, hreduced, Shuffle.onList_map, execute,
        reduced_put]
      rfl
  | operate operator =>
      rw [Workspace.execute, machine.operate_reduced input output hmodular, execute]
  | _ => cases hmodular

/-- What the instructions of a program do to reduced integers is what they do to the integers,
reduced. -/
theorem performs_reduced [Source ι] [Sink ο] {instructions : List Instruction}
    (hmodular : ∀ instruction ∈ instructions, instruction.isModular = true) :
    (machine.reduced input output).Performs instructions
      ((machine.executeAll instructions).reduced input output) := by
  induction instructions generalizing machine with
  | nil => exact .nil _
  | cons instruction instructions ih =>
      obtain ⟨hfirst, hrest⟩ := List.forall_mem_cons.mp hmodular
      have hplain : Run.IsPlain instruction := by
        cases instruction with
        | leave | loopOpen | loopClose => cases hfirst
        | _ => exact ⟨rfl, nofun⟩
      exact .cons hplain (machine.execute_reduced input output hfirst)
        (ih (machine.execute instruction) hrest)

/-- A machine that holds integers holds the reductions of the integers that it starts on. -/
theorem reduced_ofMachine {machine : Machine} (hbank : machine.bank.HoldsIntegers) :
    (ofMachine machine).reduced input output = (machine.start input output).workspace := by
  have hregisters : Bank.ofFn
      (fun letter => .ofList (((ofMachine machine).registers letter).map .reduced)) =
        machine.bank := by
    apply Bank.ext
    intro letter
    have hvalues : ((ofMachine machine).registers letter).map .reduced =
        (machine.bank.get letter).toList := by
      have hsame : ∀ value ∈ (machine.bank.get letter).toList,
          (Value.reduced ∘ fun value => value.toInt64.toInt) value = id value :=
        fun value hmem => Value.reduced_toInt (hbank letter value hmem)
      rw [ofMachine, List.map_map, List.map_congr_left hsame, List.map_id]
    rw [Bank.get_ofFn, hvalues, Deque.ofList_toList]
  exact congrArg (Workspace.mk · _ _ _) hregisters

end ExactMachine

/-- **Wrapping arithmetic is arithmetic modulo `2 ^ 64`.**  A run without a limit of a program that
moves values about, adds, subtracts and multiplies ends with success, and each of its registers
holds as many values as over unbounded integers, each of them the reduction of the unbounded one. -/
theorem Run.reduces_exact_run {ι ο : Type} [Source ι] [Sink ο] (program : Program)
    (machine : Machine) (input : ι) (output : ο) (hlimit : machine.limit = none)
    (hprogram : ∀ instruction ∈ program.instructions, instruction.isModular = true)
    (hbank : machine.bank.HoldsIntegers) :
    let exact := (ExactMachine.ofMachine machine).executeAll program.instructions.toList
    ∃ last, (machine.start input output).Ends program last ∧ last.status = .halted ∧
      (∀ letter, List.Forall₂ Value.Reduces (last.workspace.bank.get letter).toList
        (exact.registers letter)) ∧
      last.workspace.active = exact.active ∧ last.workspace.input = input ∧
      last.workspace.output = output := by
  intro exact
  have hperforms : (machine.start input output).workspace.Performs program.instructions.toList
      (exact.reduced input output) := by
    rw [← ExactMachine.reduced_ofMachine input output hbank]
    apply ExactMachine.performs_reduced
    intro instruction hmem
    exact hprogram instruction (Array.mem_toList_iff.mp hmem)
  refine ⟨_, ends_of_performs (by simp [hlimit]) hperforms, rfl, ?_, rfl, rfl, rfl⟩
  intro letter
  have hvalues : ((exact.reduced input output).bank.get letter).toList =
      (exact.registers letter).map .reduced := by
    rw [ExactMachine.reduced, Bank.get_ofFn, Deque.toList_ofList]
  rw [hvalues, List.forall₂_map_left_iff, List.forall₂_same]
  exact fun number _ => Value.reduces_reduced number

/-- The square of twice the greatest integer, less three, is one modulo `2 ^ 64`. -/
theorem Run.reduces_exact_run_of_overflow :
    let program := Program.ofChars [':', '+', ':', '*', 'B', 'b', '3', '-']
    let machine : Machine := { bank := Bank.empty.push ⟨0⟩ (.integer Int64.maxValue) }
    ((ExactMachine.ofMachine machine).executeAll program.instructions.toList).registers ⟨1⟩ =
        [340282366920938463389587631136930004993] ∧
      ∃ last : Run ByteStream OutputBuffer, (machine.start ⟨[], false⟩ {}).Ends program last ∧
        last.status = .halted ∧ (last.workspace.bank.get ⟨1⟩).toList = [.integer 1] := by
  intro program machine
  have hexact : ((ExactMachine.ofMachine machine).executeAll program.instructions.toList).registers
      ⟨1⟩ = [340282366920938463389587631136930004993] := by decide +kernel
  have hbank : machine.bank.HoldsIntegers := by
    apply Bank.holdsIntegers_empty.set
    rw [Bank.get_empty, Deque.empty, Deque.pushFront_ofList, Deque.toList_ofList]
    exact allIntegers_cons.mpr ⟨rfl, List.forall_mem_nil _⟩
  have hprogram : ∀ instruction ∈ program.instructions, instruction.isModular = true := by decide
  obtain ⟨last, hends, hhalted, hregisters, -⟩ :=
    Run.reduces_exact_run program machine (⟨[], false⟩ : ByteStream) ({} : OutputBuffer) rfl
      hprogram hbank
  refine ⟨hexact, last, hends, hhalted, ?_⟩
  have hvalues := hregisters ⟨1⟩
  rw [hexact, List.forall₂_cons_right_iff] at hvalues
  obtain ⟨value, rest, ⟨whole, rfl, hwhole⟩, hrest, hlist⟩ := hvalues
  rw [List.forall₂_nil_right_iff] at hrest
  have hone : whole = 1 := Int64.toInt_inj.mp (hwhole.trans (by decide))
  rw [hlist, hrest, hone]

end LetterMachine
