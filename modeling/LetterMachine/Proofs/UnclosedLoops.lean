import LetterMachine.Proofs.BalancedBrackets
import LetterMachine.Proofs.LoopControl
import LetterMachine.Proofs.Relocation

/-!
# Loops that are never closed

A `?` without an end is on the stack of loops at every later position.  So a run that has come past
it never goes back to it: it goes back only to the innermost loop around its position, and at the
end of a loop that one starts behind the `?`.  And if the body is passed over, the end that is
looked for never comes, and the run comes to the end of the program without executing anything more.
-/

namespace LetterMachine

variable {program : Program} {start : Nat}

/-- In a scan that began right behind an unclosed `?`, no `\` is the end that is looked for. -/
theorem Control.PassesOver.passed_ne_nil {control : Control} {passed : List Nat}
    (hunclosed : start ∈ program.stackAt program.size)
    (hcontrol : control.PassesOver program (start + 1) passed)
    (hget : program.get? control.position = some .loopClose) : passed ≠ [] := by
  rintro rfl
  have hstack : program.stackAt (control.position + 1) = program.stackAt start := by
    rw [Program.stackAt_succ hget, hcontrol.stack_eq,
      Program.stackAt_succ (Program.get?_of_mem_stackAt hunclosed)]
    rfl
  have hmem : start ∈ program.stackAt (control.position + 1) := by
    have horigin := hcontrol.origin_le
    exact Program.mem_stackAt_of_le hunclosed (by omega) (Program.lt_size_of_get? hget)
  rw [hstack] at hmem
  exact Nat.lt_irrefl start (Program.lt_of_mem_stackAt hmem)

namespace Run

variable {ι ο : Type} [Source ι] [Sink ο]

/-- The run executes the `?` at a position in its transition after `count` others: it stands there
to execute instructions, and has a step left. -/
structure ExecutesOpen (program : Program) (run : Run ι ο) (position count : Nat) : Prop where
  ready : (run.after program count).Ready program .loopOpen
  running : (run.after program count).control.mode = .running
  position_eq : (run.after program count).control.position = position

/-- The value that a loop looks at, unless the register is empty. -/
def condition? (run : Run ι ο) : Option Value :=
  run.workspace.contents.toList.head?

omit [Source ι] [Sink ο] in
/-- A missing condition is a false one. -/
theorem takeCondition_fst (run : Run ι ο) :
    run.workspace.takeCondition.1 = run.condition?.any Value.isTruthy := by
  obtain ⟨values, hvalues⟩ := Deque.exists_eq_ofList run.workspace.contents
  rw [condition?, Workspace.takeCondition, hvalues, Deque.toList_ofList]
  cases values with
  | nil => rfl
  | cons condition rest =>
      rw [Deque.popFront?_ofList_cons]
      rfl

/-- One transition does not lead back to an unclosed `?` or before it. -/
theorem lt_position_next {run : Run ι ο} (hunclosed : start ∈ program.stackAt program.size)
    (hexecutes : run.control.mode = .running → run.control.Executes program)
    (hlt : start < run.control.position) : start < (run.next program).1.control.position := by
  have htransition := run.next_transition program
  generalize run.next program = next at htransition
  cases htransition with
  | ended | halt | exhausted | unmatched | mishap => exact hlt
  | skip | enter | pass | leave | plain => simpa using Nat.lt_succ_of_lt hlt
  | back hready hmode hback =>
      have hhead := Control.head?_opened_of_back? hback
      rw [(hexecutes hmode).countStep.opened_eq, Control.position_countStep] at hhead
      have hget := hready.get?_eq
      have hmem : start ∈ program.stackAt (run.control.position + 1) :=
        Program.mem_stackAt_of_le hunclosed (Nat.lt_succ_of_lt hlt) (Program.lt_size_of_get? hget)
      rw [Program.stackAt_succ hget, Program.stackAt_eq_cons_of_head? hhead] at hmem
      exact Program.lt_of_mem_stackAt hmem

/-- The run passes over instructions since it has come to an unclosed `?` with a false condition. -/
def PassesUnclosed (program : Program) (start : Nat) (run : Run ι ο) : Prop :=
  ∃ passed, run.control.PassesOver program (start + 1) passed

/-- One transition of such a run changes nothing that instructions work on. -/
theorem PassesUnclosed.of_next {run : Run ι ο} (hunclosed : start ∈ program.stackAt program.size)
    (hpasses : run.PassesUnclosed program start) :
    (run.next program).1.PassesUnclosed program start ∧
      (run.next program).1.workspace = run.workspace := by
  obtain ⟨passed, hcontrol⟩ := hpasses
  have hskipping := hcontrol.mode_eq
  have htransition := run.next_transition program
  generalize run.next program = next at htransition
  cases htransition with
  | ended | halt | exhausted => exact ⟨⟨passed, hcontrol⟩, rfl⟩
  | skip hready =>
      have hgoes := fun hclose =>
        hcontrol.passed_ne_nil hunclosed (hready.get?_eq.trans (congrArg some hclose))
      exact ⟨hcontrol.countStep.skip_of_ne hready.get?_eq hgoes, rfl⟩
  | unmatched _ hmode | mishap _ hmode | enter _ hmode | pass _ hmode | back _ hmode
  | leave _ hmode | plain _ hmode =>
      rw [hskipping] at hmode
      cases hmode

theorem PassesUnclosed.of_after {run : Run ι ο} (hunclosed : start ∈ program.stackAt program.size)
    (hpasses : run.PassesUnclosed program start) (count : Nat) :
    (run.after program count).PassesUnclosed program start ∧
      (run.after program count).workspace = run.workspace := by
  induction count with
  | zero => exact ⟨hpasses, rfl⟩
  | succ count ih =>
      obtain ⟨hpasses', hworkspace⟩ := ih.1.of_next hunclosed
      rw [after_succ]
      exact ⟨hpasses', hworkspace.trans ih.2⟩

/-- How a run ends that only passes over what is left of its program: at the end of the program, or
where its limit of steps is used up. -/
structure EndsSkipping (program : Program) (run last : Run ι ο) : Prop where
  ends : run.Ends program last
  skipping : last.control.mode = .skipping
  outcome : last.status = .halted ∧ last.control.position = program.size ∨
    ∃ limit ∈ run.limit, last.status = .failed (.stepsExhausted limit) ∧
      limit < run.control.steps + (program.size - run.control.position)

theorem endsSkipping_of_end {run : Run ι ο} (hworking : run.status = .working)
    (hskipping : run.control.mode = .skipping) (hposition : run.control.position ≤ program.size)
    (hget : program.get? run.control.position = none) :
    run.EndsSkipping program (run.next program).1 := by
  have hsize := hposition.antisymm (Program.get?_eq_none_iff.mp hget)
  have hend := next_of_end hworking hget
  refine ⟨⟨?_, 1, rfl⟩, ?_, Or.inl ?_⟩
  · simp [hend]
  · rw [hend]
    exact hskipping
  · rw [hend]
    exact ⟨rfl, hsize⟩

theorem endsSkipping_of_exhausted {run : Run ι ο} {instruction : Instruction} {limit : Nat}
    (hworking : run.status = .working) (hskipping : run.control.mode = .skipping)
    (hget : program.get? run.control.position = some instruction)
    (hlimit : run.exhausted? = some limit) : run.EndsSkipping program (run.next program).1 := by
  have hlt := Program.lt_size_of_get? hget
  obtain ⟨hmem, hle⟩ := Option.filter_eq_some_iff.mp hlimit
  have hend := next_of_exhausted hworking hget hlimit
  refine ⟨⟨?_, 1, rfl⟩, ?_, Or.inr ⟨limit, hmem, ?_, ?_⟩⟩
  · simp [hend, fail]
  · rw [hend]
    exact hskipping
  · rw [hend]
    rfl
  · have := of_decide_eq_true hle
    omega

theorem next_of_skip {run : Run ι ο} {instruction : Instruction}
    (hready : run.Ready program instruction) (hskipping : run.control.mode = .skipping) :
    (run.next program).1 = { run with control := run.control.countStep.skip instruction } := by
  rw [next_of_ready hready]
  simp only [step, hskipping]

theorem PassesUnclosed.exists_end {run : Run ι ο} (hunclosed : start ∈ program.stackAt program.size)
    (hpasses : run.PassesUnclosed program start) (hworking : run.status = .working)
    (hposition : run.control.position ≤ program.size) :
    ∃ last, run.EndsSkipping program last := by
  induction hleft : program.size - run.control.position generalizing run with
  | zero =>
      obtain ⟨passed, hcontrol⟩ := hpasses
      have hget := Program.get?_eq_none_iff.mpr (Nat.sub_eq_zero_iff_le.mp hleft)
      exact ⟨_, endsSkipping_of_end hworking hcontrol.mode_eq hposition hget⟩
  | succ left ih =>
      have hskipping := hpasses.choose_spec.mode_eq
      have hlt : run.control.position < program.size := by omega
      obtain ⟨instruction, hget⟩ : ∃ instruction,
          program.get? run.control.position = some instruction :=
        ⟨_, Program.get?_eq_some_iff.mpr ⟨hlt, rfl⟩⟩
      cases hlimit : run.exhausted? with
      | some limit => exact ⟨_, endsSkipping_of_exhausted hworking hskipping hget hlimit⟩
      | none =>
          have hnext := next_of_skip ⟨hworking, hget, hlimit⟩ hskipping
          have hpasses' := (hpasses.of_next hunclosed).1
          rw [hnext] at hpasses'
          obtain ⟨last, ⟨hended, count, hafter⟩, hlast, houtcome⟩ :=
            ih hpasses' hworking (by simpa using hlt) (by simp; omega)
          refine ⟨last, ⟨hended, count + 1, ?_⟩, hlast, ?_⟩
          · rw [after, hnext, hafter]
          · refine houtcome.imp_right ?_
            rintro ⟨limit, hmem, hstatus, hless⟩
            refine ⟨limit, hmem, hstatus, ?_⟩
            rw [Control.position_skip, Control.position_countStep, Control.steps_skip,
              Control.steps_countStep] at hless
            omega

/-! ## From the beginning of a program -/

/-- After a `?` the run is one position further, with one more step counted. -/
theorem ExecutesOpen.control_succ {run : Run ι ο} {position count : Nat}
    (hopens : run.ExecutesOpen program position count) :
    (run.after program (count + 1)).control.position = position + 1 ∧
      (run.after program (count + 1)).control.steps = (run.after program count).control.steps + 1 ∧
      (run.after program (count + 1)).status = .working := by
  obtain ⟨hready, hmode, rfl⟩ := hopens
  rw [after_succ, next_of_ready hready]
  simp only [step, hmode, execute, openLoop]
  split
  · exact ⟨rfl, rfl, hready.working⟩
  · exact ⟨rfl, rfl, hready.working⟩

/-- A false condition lets the run pass over the body. -/
theorem ExecutesOpen.control_of_false {run : Run ι ο} {position count : Nat}
    (hopens : run.ExecutesOpen program position count)
    (hcondition : (run.after program count).workspace.takeCondition.1 = false) :
    (run.after program (count + 1)).control =
      (run.after program count).control.countStep.pass := by
  obtain ⟨hready, hmode, -⟩ := hopens
  rw [after_succ, next_of_ready hready]
  simp only [step, hmode, execute, openLoop, hcondition]
  rfl

section FromStart

variable (machine : Machine) (input : ι) (output : ο) {count later : Nat}

theorem lt_position_after (hunclosed : start ∈ program.stackAt program.size)
    (hlt : start < ((machine.start input output).after program count).control.position)
    (hle : count ≤ later) :
    start < ((machine.start input output).after program later).control.position := by
  induction later, hle using Nat.le_induction with
  | base => exact hlt
  | succ later _ ih =>
      rw [after_succ]
      exact lt_position_next hunclosed (agrees_of_start program machine input output later).executes
        ih

/-- Once an unclosed `?` has been executed, the run stays behind it. -/
theorem ExecutesOpen.lt_position (hunclosed : start ∈ program.stackAt program.size)
    (hopens : (machine.start input output).ExecutesOpen program start count)
    (hlater : count < later) :
    start < ((machine.start input output).after program later).control.position := by
  apply lt_position_after machine input output hunclosed _ hlater
  rw [hopens.control_succ.1]
  exact Nat.lt_succ_self start

/-- An unclosed `?` with a false condition is where passing over instructions begins for good. -/
theorem ExecutesOpen.passesUnclosed
    (hopens : (machine.start input output).ExecutesOpen program start count)
    (hcondition :
      ((machine.start input output).after program count).workspace.takeCondition.1 = false) :
    ((machine.start input output).after program (count + 1)).PassesUnclosed program start := by
  have hcontrol := (agrees_of_start program machine input output count).executes hopens.running
  have hpasses := hcontrol.countStep.pass hopens.ready.get?_eq
  rw [← hopens.control_of_false hcondition, Control.position_countStep,
    hopens.position_eq] at hpasses
  exact ⟨[], hpasses⟩

theorem ExecutesOpen.le {first second : Nat} (hunclosed : start ∈ program.stackAt program.size)
    (hfirst : (machine.start input output).ExecutesOpen program start first)
    (hsecond : (machine.start input output).ExecutesOpen program start second) :
    first ≤ second := by
  apply Nat.le_of_not_lt
  intro hlt
  have hbehind := hsecond.lt_position machine input output hunclosed hlt
  exact Nat.ne_of_gt hbehind hfirst.position_eq

/-- From an unclosed `?` with a false condition on, the run takes one step for each instruction that
is left. -/
theorem ExecutesOpen.exists_end (hunclosed : start ∈ program.stackAt program.size)
    (hopens : (machine.start input output).ExecutesOpen program start count)
    (hcondition :
      ((machine.start input output).after program count).workspace.takeCondition.1 = false) :
    ∃ last, (machine.start input output).Ends program last ∧ last.control.mode = .skipping ∧
      (last.status = .halted ∧ last.control.position = program.size ∨
        ∃ limit ∈ machine.limit, last.status = .failed (.stepsExhausted limit) ∧
          limit < ((machine.start input output).after program count).control.steps +
            (program.size - start)) := by
  obtain ⟨hposition, hsteps, hworking⟩ := hopens.control_succ
  have hpasses := hopens.passesUnclosed machine input output hcondition
  have hsize := position_le_size program machine input output (count + 1)
  obtain ⟨last, ⟨hended, further, hafter⟩, hskipping, houtcome⟩ :=
    hpasses.exists_end hunclosed hworking hsize
  refine ⟨last, ⟨hended, count + 1 + further, ?_⟩, hskipping, ?_⟩
  · rw [after_add, hafter]
  · refine houtcome.imp_right ?_
    rintro ⟨limit, hmem, hstatus, hless⟩
    rw [limit_after] at hmem
    rw [hposition] at hsize
    rw [hposition, hsteps] at hless
    refine ⟨limit, hmem, hstatus, ?_⟩
    omega

end FromStart

/-- **An unclosed loop runs once.**  In any run, a `?` that is reported as unclosed is executed at
most once.  After it has been executed with a true condition, the run never stands at the `?` or
before it again.  After it has been executed with a false condition, or on an empty register, the
run only passes over instructions and changes nothing any more; and it ends at the end of the
program, unless its limit does not leave one step for each instruction from the `?` on. -/
theorem unclosed_runs_once {program : Program} {start : Nat}
    (hissue : .unclosedOpen start ∈ program.issues) (machine : Machine) (input : ι) (output : ο) :
    let run := machine.start input output
    (∀ first second, run.ExecutesOpen program start first → run.ExecutesOpen program start second →
      first = second) ∧
    (∀ count, run.ExecutesOpen program start count →
      (∃ value ∈ (run.after program count).condition?, value.isTruthy = true) →
      ∀ later, count < later → start < (run.after program later).control.position) ∧
    (∀ count, run.ExecutesOpen program start count →
      (∀ value ∈ (run.after program count).condition?, value.isTruthy = false) →
      (∀ later, count < later →
        (run.after program later).control.mode = .skipping ∧
        (run.after program later).workspace = (run.after program (count + 1)).workspace) ∧
      ∃ last, run.Ends program last ∧ last.control.mode = .skipping ∧
        (last.status = .halted ∧ last.control.position = program.size ∨
          ∃ limit ∈ machine.limit, last.status = .failed (.stepsExhausted limit) ∧
            limit < (run.after program count).control.steps + (program.size - start))) := by
  intro run
  have hunclosed := Program.unclosedOpen_mem_issues_iff.mp hissue
  refine ⟨?_, ?_, ?_⟩
  · intro first second hfirst hsecond
    exact Nat.le_antisymm (hfirst.le machine input output hunclosed hsecond)
      (hsecond.le machine input output hunclosed hfirst)
  · intro count hopens _ later hlater
    exact hopens.lt_position machine input output hunclosed hlater
  · intro count hopens hcondition
    have hfalse : (run.after program count).workspace.takeCondition.1 = false := by
      rw [takeCondition_fst]
      cases hvalue : (run.after program count).condition? with
      | none => rfl
      | some value => exact hcondition value hvalue
    have hpasses := hopens.passesUnclosed machine input output hfalse
    refine ⟨?_, hopens.exists_end machine input output hunclosed hfalse⟩
    intro later hlater
    obtain ⟨further, rfl⟩ := Nat.exists_eq_add_of_le hlater
    rw [after_add]
    obtain ⟨⟨passed, hcontrol⟩, hworkspace⟩ := hpasses.of_after hunclosed further
    exact ⟨hcontrol.mode_eq, hworkspace⟩

/-- The outer loop is entered and the inner one passed over, and the program ends in it. -/
theorem unclosed_runs_once_of_nested :
    let program := Program.ofChars ['1', '?', '0', '?', '5', '#']
    let run : Run ByteStream OutputBuffer := Machine.start {} ⟨[], false⟩ ⟨none, []⟩
    .unclosedOpen 1 ∈ program.issues ∧ .unclosedOpen 3 ∈ program.issues ∧
      run.ExecutesOpen program 1 1 ∧ run.ExecutesOpen program 3 3 ∧
      (∀ later, 1 < later → 1 < (run.after program later).control.position) ∧
      (∀ count, run.ExecutesOpen program 3 count → count = 3) ∧
      ∃ last, run.Ends program last ∧ last.control.mode = .skipping ∧
        last.status = .halted ∧ last.control.position = 6 := by
  intro program run
  have houter : .unclosedOpen 1 ∈ program.issues := by decide
  have hinner : .unclosedOpen 3 ∈ program.issues := by decide
  have hentered : run.ExecutesOpen program 1 1 := ⟨⟨rfl, rfl, rfl⟩, rfl, rfl⟩
  have hpassed : run.ExecutesOpen program 3 3 := ⟨⟨rfl, rfl, rfl⟩, rfl, rfl⟩
  obtain ⟨-, htrue, -⟩ := unclosed_runs_once houter {} (⟨[], false⟩ : ByteStream)
    (⟨none, []⟩ : OutputBuffer)
  obtain ⟨honce, -, hfalse⟩ := unclosed_runs_once hinner {} (⟨[], false⟩ : ByteStream)
    (⟨none, []⟩ : OutputBuffer)
  obtain ⟨-, last, hends, hskipping, houtcome⟩ := hfalse 3 hpassed (by decide)
  refine ⟨houter, hinner, hentered, hpassed, htrue 1 hentered ?_,
    fun count hcount => honce count 3 hcount hpassed, last, hends, hskipping, ?_⟩
  · decide
  · exact houtcome.resolve_right (by simp)

end Run

end LetterMachine
