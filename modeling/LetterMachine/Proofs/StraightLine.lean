import LetterMachine.Proofs.Brackets
import LetterMachine.Proofs.Transitions

/-!
# Programs without loops

A program without loop instructions is carried out from its first instruction to its last one.  What
its instructions do to a workspace, one after the other, is therefore what a run does, and a run
that meets no mishap and has no limit, or one that is not below the length of the program, comes to
the end of the program and halts there.
-/

namespace LetterMachine

variable {ι ο : Type} [Source ι] [Sink ο]

/-- Instructions that have nothing to do with loops make one workspace of another, one after the
other and without a mishap. -/
inductive Workspace.Performs : Workspace ι ο → List Instruction → Workspace ι ο → Prop where
  | nil (workspace : Workspace ι ο) : Performs workspace [] workspace
  | cons {before middle after : Workspace ι ο} {instruction : Instruction}
      {instructions : List Instruction} (hplain : Run.IsPlain instruction)
      (hexecute : before.execute instruction = (middle, none))
      (hrest : middle.Performs instructions after) :
      Performs before (instruction :: instructions) after

theorem Workspace.Performs.append {before middle after : Workspace ι ο}
    {first second : List Instruction} (hfirst : before.Performs first middle)
    (hsecond : middle.Performs second after) : before.Performs (first ++ second) after := by
  induction hfirst with
  | nil => exact hsecond
  | cons hplain hexecute _ ih => exact .cons hplain hexecute (ih hsecond)

namespace Run

variable {program : Program}

/-- A run goes through instructions that stand where it is, and counts a step for each. -/
theorem after_of_performs {run : Run ι ο} (hworking : run.status = .working)
    (hmode : run.control.mode = .running) {instructions : List Instruction}
    (hroom : ∀ limit ∈ run.limit, run.control.steps + instructions.length ≤ limit)
    (hinstructions : instructions <+: program.instructions.toList.drop run.control.position)
    {after : Workspace ι ο} (hperforms : run.workspace.Performs instructions after) :
    run.after program instructions.length =
      { run with
        workspace := after
        control := { run.control with
          position := run.control.position + instructions.length
          steps := run.control.steps + instructions.length } } := by
  generalize hbefore : run.workspace = before at hperforms
  induction hperforms generalizing run with
  | nil =>
      subst hbefore
      rfl
  | @cons before middle after instruction instructions hplain hexecute _ ih =>
      subst hbefore
      obtain ⟨behind, hbehind⟩ := hinstructions
      obtain ⟨hget, hdrop⟩ := Program.get?_and_drop_of_drop_eq_cons hbehind.symm
      rw [List.length_cons] at hroom
      have hready : run.Ready program instruction := by
        refine ⟨hworking, hget, exhausted?_eq_none_iff.mpr fun limit hlimit => ?_⟩
        have hle := hroom limit hlimit
        omega
      have hroom' : ∀ limit ∈ run.limit, run.control.steps + 1 + instructions.length ≤ limit := by
        intro limit hlimit
        have hle := hroom limit hlimit
        omega
      have hprefix : instructions <+: program.instructions.toList.drop (run.control.position + 1) :=
        ⟨behind, hdrop.symm⟩
      have hnext : (run.next program).1 = _ := next_of_execute_ok hready hmode hplain hexecute
      have hrest := @ih { run with workspace := middle, control := run.control.countStep.advance }
        hworking hmode hroom' hprefix rfl
      have hlength (start : Nat) :
          start + 1 + instructions.length = start + (instruction :: instructions).length := by
        rw [List.length_cons]
        omega
      rw [← hlength, ← hlength, List.length_cons, Run.after, hnext]
      exact hrest

section FromStart

variable {machine : Machine} {input : ι} {output : ο}

/-- From the start of a program, as many steps are counted as there are instructions done. -/
theorem after_take_of_performs {count : Nat} (hcount : count ≤ program.size)
    (hroom : ∀ limit ∈ machine.limit, count ≤ limit) {after : Workspace ι ο}
    (hperforms : (machine.start input output).workspace.Performs
      (program.instructions.toList.take count) after) :
    (machine.start input output).after program count =
      { workspace := after
        control := { position := count, steps := count }
        limit := machine.limit
        status := .working } := by
  have hlength : (program.instructions.toList.take count).length = count :=
    List.length_take_of_le (hcount.trans (Nat.le_of_eq Array.length_toList.symm))
  have hfront : program.instructions.toList.take count <+:
      program.instructions.toList.drop (machine.start input output).control.position :=
    List.take_prefix count _
  have hroom' : ∀ limit ∈ (machine.start input output).limit,
      (machine.start input output).control.steps +
        (program.instructions.toList.take count).length ≤ limit := by
    intro limit hlimit
    rw [hlength, Machine.start, Nat.zero_add]
    exact hroom limit hlimit
  have hafter := after_of_performs rfl rfl hroom' hfront hperforms
  rw [hlength] at hafter
  rw [hafter]
  simp [Machine.start]

/-- **A program without loops ends with what its instructions have done**, if none of them fails and
the limit leaves room for all of them. -/
theorem ends_of_performs (hroom : ∀ limit ∈ machine.limit, program.size ≤ limit)
    {after : Workspace ι ο}
    (hperforms :
      (machine.start input output).workspace.Performs program.instructions.toList after) :
    (machine.start input output).Ends program
      { workspace := after
        control := { position := program.size, steps := program.size }
        limit := machine.limit
        status := .halted } := by
  have hwhole : program.instructions.toList.take program.size = program.instructions.toList :=
    List.take_of_length_le (Nat.le_of_eq Array.length_toList)
  have hend : program.get? program.size = none := Program.get?_eq_none_iff.mpr (Nat.le_refl _)
  refine ⟨nofun, program.size + 1, ?_⟩
  rw [after_succ, after_take_of_performs (Nat.le_refl _) hroom (hwhole ▸ hperforms),
    next_of_end rfl hend]

/-- A limit that does not leave room for all instructions stops the program behind as many of them
as it allows. -/
theorem ends_of_performs_take {limit : Nat} (hlimit : machine.limit = some limit)
    (hshort : limit < program.size) {after : Workspace ι ο}
    (hperforms : (machine.start input output).workspace.Performs
      (program.instructions.toList.take limit) after) :
    (machine.start input output).Ends program
      { workspace := after
        control := { position := limit, steps := limit }
        limit := machine.limit
        status := .failed (.stepsExhausted limit) } := by
  have hroom : ∀ bound ∈ machine.limit, limit ≤ bound := by
    intro bound hbound
    exact Nat.le_of_eq (Option.some.inj (hlimit.symm.trans hbound))
  have hget : program.get? limit = some program.instructions[limit] :=
    Array.getElem?_eq_getElem hshort
  have hexhausted : ({
      workspace := after
      control := { position := limit, steps := limit }
      limit := machine.limit
      status := .working } : Run ι ο).exhausted? = some limit :=
    Option.filter_eq_some_iff.mpr ⟨hlimit, decide_eq_true (Nat.le_refl limit)⟩
  refine ⟨by simp, limit + 1, ?_⟩
  rw [after_succ, after_take_of_performs (Nat.le_of_lt hshort) hroom hperforms,
    next_of_exhausted rfl hget hexhausted]
  rfl

end FromStart

end Run

end LetterMachine
