import LetterMachine.Proofs.KnownOperands
import Mathlib.Algebra.BigOperators.Group.Finset.Piecewise
import Mathlib.Algebra.Order.Group.Multiset
import Mathlib.Data.Fintype.Defs
import Mathlib.Data.List.Rotate

/-!
# Values that are only moved

Selections, transfers, exchanges and rotations take nothing away and add nothing: a program of them
leaves all values that there were, each as often, though in other places.  Such a program never
looks at a value.  It does the same to registers with anything in them, and `Arrangement` says what;
so whatever else there is to a value than can be seen of it here, it is kept as well.

Rotating a register as many times as it has values brings each of them back to its place.
-/

namespace LetterMachine

instance : Fintype Letter where
  elems := Letter.all.toFinset
  complete := by simp

/-- Whether an instruction only moves values from one place to another. -/
def Instruction.isMove : Instruction → Bool
  | .select _ | .transfer _ | .nop _ => true
  | .shuffle .swap | .shuffle .backToFront | .shuffle .frontToBack => true
  | _ => false

/-- All values of a bank together, with their numbers but without their places. -/
def Bank.values (bank : Bank) : Multiset Value :=
  ∑ letter, ((bank.get letter).toList : Multiset Value)

theorem Shuffle.onList_perm {α : Type} {kind : Shuffle} (hmove : (Instruction.shuffle kind).isMove)
    (values : List α) : (kind.onList values).Perm values := by
  cases kind with
  | swap =>
      match values with
      | [] | [a] => exact List.Perm.refl _
      | b :: a :: rest => exact List.Perm.swap b a rest
  | backToFront =>
      rcases List.eq_nil_or_concat values with rfl | ⟨rest, last, rfl⟩
      · exact List.Perm.refl _
      · simpa [onList] using (List.perm_append_singleton last rest).symm
  | frontToBack =>
      cases values with
      | nil => exact List.Perm.refl _
      | cons a rest => exact List.perm_append_singleton a rest
  | dup | drop => cases hmove

/-! ## Registers of anything -/

/-- Registers with values of any kind in them, from the front to the back. -/
structure Arrangement (α : Type) where
  registers : Letter → List α
  active : Letter

namespace Arrangement

variable {α β : Type}

/-- The values of the active register. -/
def values (arrangement : Arrangement α) : List α :=
  arrangement.registers arrangement.active

def put (arrangement : Arrangement α) (letter : Letter) (values : List α) : Arrangement α :=
  { arrangement with registers := Function.update arrangement.registers letter values }

def transfer (arrangement : Arrangement α) (target : Letter) : Arrangement α :=
  match arrangement.values with
  | [] => arrangement
  | a :: rest =>
    let taken := arrangement.put arrangement.active rest
    taken.put target (a :: taken.registers target)

/-- Executes an instruction that only moves values. -/
def execute (arrangement : Arrangement α) : Instruction → Arrangement α
  | .select letter => { arrangement with active := letter }
  | .transfer target => arrangement.transfer target
  | .shuffle kind => arrangement.put arrangement.active (kind.onList arrangement.values)
  | _ => arrangement

def executeAll (arrangement : Arrangement α) (instructions : List Instruction) : Arrangement α :=
  instructions.foldl execute arrangement

/-- The same arrangement of what the values are mapped to. -/
def map (f : α → β) (arrangement : Arrangement α) : Arrangement β where
  registers letter := (arrangement.registers letter).map f
  active := arrangement.active

/-- All values together. -/
def contents (arrangement : Arrangement α) : Multiset α :=
  ∑ letter, (arrangement.registers letter : Multiset α)

/-! ### Nothing is lost -/

section Contents

variable (arrangement : Arrangement α)

theorem contents_put (letter : Letter) (values : List α) :
    (arrangement.put letter values).contents + (arrangement.registers letter : Multiset α) =
      arrangement.contents + values := by
  let others := ∑ place ∈ Finset.univ \ {letter}, (arrangement.registers place : Multiset α)
  have hbefore : arrangement.contents = (arrangement.registers letter : Multiset α) + others :=
    Finset.sum_eq_add_sum_sdiff_singleton_of_mem (Finset.mem_univ letter) _
  have hafter : (arrangement.put letter values).contents = values + others := by
    rw [← Finset.sum_update_of_mem (Finset.mem_univ letter)]
    apply Finset.sum_congr rfl
    intro place _
    exact Function.apply_update (fun _ (held : List α) => (held : Multiset α)) _ letter values place
  rw [hbefore, hafter, add_assoc, add_comm others, add_comm]

/-- Values put in another order are the same values. -/
theorem contents_put_of_perm {letter : Letter} {values : List α}
    (hperm : values.Perm (arrangement.registers letter)) :
    (arrangement.put letter values).contents = arrangement.contents := by
  have hput := arrangement.contents_put letter values
  rw [Multiset.coe_eq_coe.mpr hperm] at hput
  exact add_right_cancel hput

/-- What is taken from one register comes to another, or to the same one. -/
theorem contents_transfer (target : Letter) :
    (arrangement.transfer target).contents = arrangement.contents := by
  have hcons : ∀ (a : α) (rest : List α), ((a :: rest : List α) : Multiset α) = {a} + rest := by
    intro a rest
    rw [← Multiset.cons_coe, Multiset.singleton_add]
  unfold transfer
  cases hvalues : arrangement.values with
  | nil => rfl
  | cons a rest =>
      have htaken := arrangement.contents_put arrangement.active rest
      rw [← values, hvalues, hcons, ← add_assoc] at htaken
      simp only
      generalize arrangement.put arrangement.active rest = taken at htaken
      have hgiven := taken.contents_put target (a :: taken.registers target)
      rw [hcons, ← add_assoc] at hgiven
      exact (add_right_cancel hgiven).trans (add_right_cancel htaken)

theorem contents_execute {instruction : Instruction} (hmove : instruction.isMove) :
    (arrangement.execute instruction).contents = arrangement.contents := by
  cases instruction with
  | select | nop => rfl
  | transfer target => exact arrangement.contents_transfer target
  | shuffle kind => exact arrangement.contents_put_of_perm (Shuffle.onList_perm hmove _)
  | _ => cases hmove

end Contents

/-- **Nothing is lost and nothing is added** by instructions that only move values. -/
theorem contents_executeAll {instructions : List Instruction}
    (hmoves : ∀ instruction ∈ instructions, instruction.isMove) (arrangement : Arrangement α) :
    (arrangement.executeAll instructions).contents = arrangement.contents := by
  induction instructions generalizing arrangement with
  | nil => rfl
  | cons instruction instructions ih =>
      obtain ⟨hfirst, hrest⟩ := List.forall_mem_cons.mp hmoves
      exact (ih hrest _).trans (arrangement.contents_execute hfirst)

/-! ### What the values are makes no difference -/

section Map

variable (f : α → β) (arrangement : Arrangement α)

theorem map_put (letter : Letter) (values : List α) :
    (arrangement.put letter values).map f = (arrangement.map f).put letter (values.map f) := by
  have hregisters : (fun place => ((arrangement.put letter values).registers place).map f) =
      Function.update (fun place => (arrangement.registers place).map f) letter (values.map f) := by
    funext place
    exact Function.apply_update (fun _ values => List.map f values) _ letter values place
  exact congrArg (mk · arrangement.active) hregisters

theorem map_transfer (target : Letter) :
    (arrangement.transfer target).map f = (arrangement.map f).transfer target := by
  have hmapped : (arrangement.map f).values = arrangement.values.map f := rfl
  unfold transfer
  cases hvalues : arrangement.values with
  | nil =>
      rw [hmapped, hvalues]
      rfl
  | cons a rest =>
      have htaken := arrangement.map_put f arrangement.active rest
      rw [hmapped, hvalues]
      simp only [List.map_cons, map_put]
      change _ = ((arrangement.map f).put arrangement.active _).put target
        (f a :: ((arrangement.map f).put arrangement.active _).registers target)
      rw [← htaken]
      rfl

theorem map_execute (instruction : Instruction) :
    (arrangement.execute instruction).map f = (arrangement.map f).execute instruction := by
  cases instruction with
  | transfer target => exact arrangement.map_transfer f target
  | shuffle kind =>
      rw [execute, map_put, ← Shuffle.onList_map]
      rfl
  | _ => rfl

theorem map_executeAll (instructions : List Instruction) :
    (arrangement.executeAll instructions).map f = (arrangement.map f).executeAll instructions := by
  induction instructions generalizing arrangement with
  | nil => rfl
  | cons instruction instructions ih =>
      refine (ih _).trans ?_
      rw [map_execute]
      rfl

end Map

/-! ### Arrangements of values -/

section Workspaces

variable {ι ο : Type} (arrangement : Arrangement Value) (input : ι) (output : ο)

/-- The arrangement as registers to work on. -/
def workspace : Workspace ι ο where
  bank := .ofFn fun letter => .ofList (arrangement.registers letter)
  active := arrangement.active
  input := input
  output := output

theorem values_workspace : (arrangement.workspace input output).values = arrangement.values := by
  simp [Workspace.values, Workspace.contents, workspace, values]

theorem workspace_put (letter : Letter) (values : List Value) :
    (arrangement.put letter values).workspace input output =
      (arrangement.workspace input output).withValues letter values := by
  simp only [workspace, Workspace.withValues, Bank.set_ofFn, put]
  congr 2
  funext place
  exact Function.apply_update (fun _ held => Deque.ofList held) _ letter values place

theorem transfer_workspace (target : Letter) :
    (arrangement.workspace input output).transfer target =
      (arrangement.transfer target).workspace input output := by
  have hheld := arrangement.values_workspace input output
  cases hvalues : arrangement.values with
  | nil =>
      rw [hvalues] at hheld
      rw [Workspace.transfer_of_starved (by simp [hheld]), transfer, hvalues]
  | cons a rest =>
      rw [hvalues] at hheld
      have htaken := arrangement.workspace_put input output arrangement.active rest
      rw [Workspace.transfer_eq_withValues hheld, transfer, hvalues]
      simp only [workspace_put _ _ _ target]
      change ((arrangement.workspace input output).withValues arrangement.active rest).withValues
        target (a :: (((arrangement.workspace input output).withValues arrangement.active
          rest).bank.get target).toList) = _
      rw [← htaken]
      generalize arrangement.put arrangement.active rest = taken
      rw [workspace, Bank.get_ofFn, Deque.toList_ofList]

variable [Source ι] [Sink ο]

/-- An instruction that only moves values does so in a workspace, and does not fail. -/
theorem execute_workspace {instruction : Instruction} (hmove : instruction.isMove) :
    (arrangement.workspace input output).execute instruction =
      ((arrangement.execute instruction).workspace input output, none) := by
  cases instruction with
  | select | nop => rfl
  | transfer target => exact congrArg (·, none) (arrangement.transfer_workspace input output target)
  | shuffle kind =>
      rw [Workspace.execute, Workspace.shuffle_eq_withValues, values_workspace, execute,
        workspace_put]
      rfl
  | _ => cases hmove

theorem performs_workspace {instructions : List Instruction}
    (hmoves : ∀ instruction ∈ instructions, instruction.isMove) :
    (arrangement.workspace input output).Performs instructions
      ((arrangement.executeAll instructions).workspace input output) := by
  induction instructions generalizing arrangement with
  | nil => exact .nil _
  | cons instruction instructions ih =>
      obtain ⟨hfirst, hrest⟩ := List.forall_mem_cons.mp hmoves
      have hplain : Run.IsPlain instruction := by
        cases instruction with
        | leave | loopOpen | loopClose => cases hfirst
        | _ => exact ⟨rfl, nofun⟩
      exact .cons hplain (arrangement.execute_workspace input output hfirst)
        (ih (arrangement.execute instruction) hrest)

end Workspaces

end Arrangement

namespace Workspace

variable {ι ο : Type}

/-- The values of the registers, each in its place. -/
def arrangement (workspace : Workspace ι ο) : Arrangement Value where
  registers letter := (workspace.bank.get letter).toList
  active := workspace.active

theorem workspace_arrangement (workspace : Workspace ι ο) :
    workspace.arrangement.workspace workspace.input workspace.output = workspace := by
  have hbank : Bank.ofFn (fun letter => .ofList (workspace.arrangement.registers letter)) =
      workspace.bank := by
    apply Bank.ext
    intro letter
    rw [Bank.get_ofFn, arrangement, Deque.ofList_toList]
  exact congrArg (Workspace.mk · _ _ _) hbank

theorem arrangement_workspace (arrangement : Arrangement Value) (input : ι) (output : ο) :
    (arrangement.workspace input output).arrangement = arrangement := by
  simp [Workspace.arrangement, Arrangement.workspace]

/-! ## Rotations -/

theorem performs_replicate_shuffle [Source ι] [Sink ο] (workspace : Workspace ι ο) (kind : Shuffle)
    (count : Nat) (values : List Value) (input : ι) (output : ο) :
    (workspace.holding values input output).Performs (List.replicate count (.shuffle kind))
      (workspace.holding (kind.onList^[count] values) input output) := by
  induction count generalizing values with
  | zero => exact .nil _
  | succ count ih =>
      rw [List.replicate_succ, Function.iterate_succ_apply]
      exact performs_shuffle (ih (kind.onList values))

end Workspace

namespace Shuffle

variable {α : Type}

theorem onList_frontToBack (values : List α) : frontToBack.onList values = values.rotate 1 := by
  cases values with
  | nil => rfl
  | cons a rest => rw [List.rotate_cons_succ, List.rotate_zero, onList]

theorem onList_backToFront_frontToBack (values : List α) :
    backToFront.onList (frontToBack.onList values) = values := by
  cases values with
  | nil => rfl
  | cons a rest => simp [onList]

theorem iterate_frontToBack (count : Nat) (values : List α) :
    frontToBack.onList^[count] values = values.rotate count := by
  induction count with
  | zero => rw [Function.iterate_zero, List.rotate_zero, id]
  | succ count ih =>
      rw [Function.iterate_succ_apply', ih, onList_frontToBack, List.rotate_rotate]

theorem iterate_frontToBack_length (values : List α) :
    frontToBack.onList^[values.length] values = values := by
  rw [iterate_frontToBack, List.rotate_length]

/-- Rotating backwards undoes as many rotations, and those have led round. -/
theorem iterate_backToFront_length (values : List α) :
    backToFront.onList^[values.length] values = values := by
  have hundone := Function.LeftInverse.iterate onList_backToFront_frontToBack values.length values
  rwa [iterate_frontToBack_length] at hundone

end Shuffle

/-- The rotations of the active register that lead back to where it was, with all else left
alone. -/
structure Workspace.RotatesBack {ι ο : Type} [Source ι] [Sink ο] (workspace : Workspace ι ο) :
    Prop where
  frontToBack : workspace.Performs
    (List.replicate workspace.values.length (.shuffle .frontToBack)) workspace
  backToFront : workspace.Performs
    (List.replicate workspace.values.length (.shuffle .backToFront)) workspace
  there_and_back : workspace.Performs [.shuffle .frontToBack, .shuffle .backToFront] workspace

theorem Workspace.rotatesBack {ι ο : Type} [Source ι] [Sink ο] (workspace : Workspace ι ο) :
    workspace.RotatesBack := by
  have hperforms := fun kind => performs_replicate_shuffle workspace kind workspace.values.length
    workspace.values workspace.input workspace.output
  have hrotated : (workspace.holding workspace.values workspace.input workspace.output).Performs
      [.shuffle .frontToBack, .shuffle .backToFront] _ :=
    performs_shuffle (performs_shuffle (.nil _))
  rw [Shuffle.onList_backToFront_frontToBack, holding_self] at hrotated
  have hfront := hperforms .frontToBack
  rw [Shuffle.iterate_frontToBack_length, holding_self] at hfront
  have hback := hperforms .backToFront
  rw [Shuffle.iterate_backToFront_length, holding_self] at hback
  exact ⟨hfront, hback, hrotated⟩

/-! ## Whole programs -/

namespace Run

variable {ι ο : Type} [Source ι] [Sink ο]

/-- What a run has come to at its end in moving values only. -/
structure Conserves (program : Program) (run last : Run ι ο) : Prop where
  ends : run.Ends program last
  /-- If the limit leaves room for all instructions, all of them have been executed. -/
  halted : (∀ limit ∈ run.limit, program.size ≤ limit) →
    last.status = .halted ∧ last.control.steps = program.size
  /-- The registers hold the same values, each as often as before. -/
  values_eq : last.workspace.bank.values = run.workspace.bank.values
  input_eq : last.workspace.input = run.workspace.input
  output_eq : last.workspace.output = run.workspace.output
  /-- If only a part of what the values are is seen in the registers, the instructions that have
  been executed keep all of it, and bring it to where it is then seen. -/
  unseen_eq : ∀ {α : Type} (seen : α → Value) (before : Arrangement α),
    before.map seen = run.workspace.arrangement →
      let after := before.executeAll (program.instructions.toList.take last.control.steps)
      after.map seen = last.workspace.arrangement ∧ after.contents = before.contents

variable {program : Program} {machine : Machine} {input : ι} {output : ο}

theorem conserves_of_executeAll {last : Run ι ο}
    (hmoves : ∀ instruction ∈ program.instructions.toList, instruction.isMove)
    (hends : (machine.start input output).Ends program last)
    (hhalted : (∀ limit ∈ machine.limit, program.size ≤ limit) →
      last.status = .halted ∧ last.control.steps = program.size)
    (hworkspace : last.workspace =
      ((machine.start input output).workspace.arrangement.executeAll
        (program.instructions.toList.take last.control.steps)).workspace input output) :
    (machine.start input output).Conserves program last := by
  have hdone : ∀ instruction ∈ program.instructions.toList.take last.control.steps,
      instruction.isMove := fun instruction hmem => hmoves instruction (List.mem_of_mem_take hmem)
  have harrangement := congrArg Workspace.arrangement hworkspace
  rw [Workspace.arrangement_workspace] at harrangement
  exact {
    ends := hends
    halted := hhalted
    values_eq := by
      change last.workspace.arrangement.contents = _
      rw [harrangement, Arrangement.contents_executeAll hdone]
      rfl
    input_eq := by
      rw [hworkspace]
      rfl
    output_eq := by
      rw [hworkspace]
      rfl
    unseen_eq := by
      intro α seen before hbefore after
      refine ⟨?_, Arrangement.contents_executeAll hdone before⟩
      rw [harrangement, ← hbefore]
      exact before.map_executeAll seen _ }

/-- **Values that are only moved are conserved.**  A program of selections, transfers, exchanges and
rotations comes to its end, and the registers then hold the values that they held before.  Rotating
a register as many times as it has values, in either direction, or once there and once back, leaves
it as it was. -/
theorem moves_conserve_values (program : Program) (machine : Machine) (input : ι) (output : ο)
    (hmoves : ∀ instruction ∈ program.instructions, instruction.isMove) :
    (∃ last, (machine.start input output).Conserves program last) ∧
      ∀ workspace : Workspace ι ο, workspace.RotatesBack := by
  refine ⟨?_, Workspace.rotatesBack⟩
  have hmoves' : ∀ instruction ∈ program.instructions.toList, instruction.isMove :=
    fun instruction hmem => hmoves instruction (Array.mem_toList_iff.mp hmem)
  have hperforms : ∀ front, front <+: program.instructions.toList →
      (machine.start input output).workspace.Performs front
        (((machine.start input output).workspace.arrangement.executeAll front).workspace
          input output) := by
    intro front hfront
    have hfront' := (machine.start input output).workspace.arrangement.performs_workspace input
      output fun instruction hmem => hmoves' instruction (hfront.subset hmem)
    have hstart : (machine.start input output).workspace.arrangement.workspace input output =
        (machine.start input output).workspace :=
      (machine.start input output).workspace.workspace_arrangement
    rwa [hstart] at hfront'
  by_cases hroom : ∀ limit ∈ machine.limit, program.size ≤ limit
  · have hwhole : program.instructions.toList.take program.size = program.instructions.toList :=
      List.take_of_length_le (Nat.le_of_eq Array.length_toList)
    have hends := ends_of_performs hroom (hperforms _ List.prefix_rfl)
    refine ⟨_, conserves_of_executeAll hmoves' hends (fun _ => ⟨rfl, rfl⟩) ?_⟩
    rw [hwhole]
  · push Not at hroom
    obtain ⟨limit, hlimit, hshort⟩ := hroom
    have hends := ends_of_performs_take hlimit hshort (hperforms _ (List.take_prefix limit _))
    refine ⟨_, conserves_of_executeAll hmoves' hends ?_ rfl⟩
    intro hall
    exact absurd (hall limit hlimit) (Nat.not_le_of_lt hshort)

/-- Values are transferred to the register that they are taken from, to other ones and from empty
ones, and a single value is rotated. -/
theorem moves_conserve_values_of_self_transfer :
    let program := Program.ofChars
      ['A', 'B', ',', 'B', ';', 'B', 'B', 'b', ';', '.', 'D', 'z', 'A', ',', 'd', '.', '$']
    let machine : Machine :=
      { bank := Bank.empty.set ⟨0⟩ (.ofList [.integer 1, .float (.infinite true), .integer 2]) }
    let start : Run ByteStream OutputBuffer := machine.start ⟨[], false⟩ {}
    let last := start.after program 18
    (∀ instruction ∈ program.instructions, instruction.isMove) ∧
      start.Conserves program last ∧ last.status = .halted ∧
      (last.workspace.bank.get ⟨0⟩).toList = [] ∧
      (last.workspace.bank.get ⟨1⟩).toList = [.integer 2, .float (.infinite true)] ∧
      (last.workspace.bank.get ⟨3⟩).toList = [.integer 1] := by
  intro program machine start last
  have hmoves : ∀ instruction ∈ program.instructions, instruction.isMove := by decide
  have hhalted : last.status = .halted := by decide
  obtain ⟨found, hconserves⟩ :=
    (moves_conserve_values program machine (⟨[], false⟩ : ByteStream) ({} : OutputBuffer) hmoves).1
  have hends : start.Ends program last := ends_of_after (by rw [hhalted]; nofun)
  have hlast : found = last := hconserves.ends.unique hends
  rw [hlast] at hconserves
  exact ⟨hmoves, hconserves, hhalted, by decide, by decide, by decide⟩

end Run

end LetterMachine
