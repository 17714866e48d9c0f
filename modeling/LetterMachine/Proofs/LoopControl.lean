import LetterMachine.Proofs.Brackets
import LetterMachine.Proofs.Transitions

/-!
# The loops that a run has open

A run finds the ends of loops by itself: it keeps the starts of its open loops and, while it passes
over instructions, a count of the loops it comes by.  In every state that a run can reach, both
agree with the brackets of the program.  While instructions are executed the open loops are the
whole stack; while they are passed over, the stack is made of the loops come by since then and of
the stack from which the passing over began, and the run has open all but the innermost loop of the
latter.
-/

namespace LetterMachine

variable {program : Program}

namespace Control

/-- The control of a run that executes instructions, in agreement with the brackets. -/
structure Executes (program : Program) (control : Control) : Prop where
  mode_eq : control.mode = .running
  opened_eq : control.opened = program.stackAt control.position
  depth_eq : control.depth = control.opened.length

/-- The control of a run that has passed over the instructions from `origin` on, in agreement with
the brackets: it has come by the loops `passed`, and they are not yet closed. -/
structure PassesOver (program : Program) (origin : Nat) (passed : List Nat) (control : Control) :
    Prop where
  mode_eq : control.mode = .skipping
  origin_le : origin ≤ control.position
  stack_eq : program.stackAt control.position = passed ++ program.stackAt origin
  passed_ge : ∀ start ∈ passed, origin ≤ start
  opened_eq : control.opened = (program.stackAt origin).tail
  depth_eq : control.depth = control.opened.length + passed.length

@[simp]
theorem position_countStep (control : Control) : control.countStep.position = control.position :=
  rfl

@[simp]
theorem position_advance (control : Control) : control.advance.position = control.position + 1 :=
  rfl

@[simp]
theorem position_enter (control : Control) : control.enter.position = control.position + 1 := rfl

@[simp]
theorem position_pass (control : Control) : control.pass.position = control.position + 1 := rfl

@[simp]
theorem position_leave (control : Control) : control.leave.position = control.position + 1 := by
  unfold leave
  split <;> rfl

@[simp]
theorem position_skip (control : Control) (instruction : Instruction) :
    (control.skip instruction).position = control.position + 1 := by
  unfold skip
  split
  · rfl
  · split <;> rfl
  · rfl

/-- The loop gone back to is the innermost one that is open. -/
theorem head?_opened_of_back? {control control' : Control}
    (hback : control.back? = some control') : control.opened.head? = some control'.position := by
  obtain ⟨start, outer, hopened, rfl⟩ := exists_of_back? hback
  rw [hopened, List.head?_cons]

namespace Executes

variable {control : Control}

theorem countStep (hcontrol : control.Executes program) : control.countStep.Executes program :=
  ⟨hcontrol.mode_eq, hcontrol.opened_eq, hcontrol.depth_eq⟩

theorem advance {instruction : Instruction} (hcontrol : control.Executes program)
    (hget : program.get? control.position = some instruction)
    (hbracket : instruction.isLoopBracket = false) : control.advance.Executes program where
  mode_eq := hcontrol.mode_eq
  opened_eq := by
    change control.opened = program.stackAt (control.position + 1)
    rw [Program.stackAt_succ hget, Instruction.nest_of_not_bracket hbracket, hcontrol.opened_eq]
  depth_eq := hcontrol.depth_eq

theorem enter (hcontrol : control.Executes program)
    (hget : program.get? control.position = some .loopOpen) : control.enter.Executes program where
  mode_eq := hcontrol.mode_eq
  opened_eq := by
    change control.position :: control.opened = program.stackAt (control.position + 1)
    rw [Program.stackAt_succ hget, hcontrol.opened_eq]
    rfl
  depth_eq := by
    change control.depth + 1 = (control.position :: control.opened).length
    rw [hcontrol.depth_eq, List.length_cons]

theorem back? {control' : Control} (hcontrol : control.Executes program)
    (hback : control.back? = some control') : control'.Executes program := by
  cases hopened : control.opened with
  | nil => simp [Control.back?, hopened] at hback
  | cons start outer =>
      simp only [Control.back?, hopened, Option.some.injEq] at hback
      subst hback
      refine ⟨hcontrol.mode_eq, ?_, ?_⟩
      · have hsuffix : (start :: outer) <:+ program.stackAt control.position := by
          rw [← hcontrol.opened_eq, hopened]
        exact (Program.stackAt_of_suffix hsuffix).symm
      · change control.depth - 1 = outer.length
        rw [hcontrol.depth_eq, hopened, List.length_cons, Nat.add_sub_cancel]

theorem pass (hcontrol : control.Executes program)
    (hget : program.get? control.position = some .loopOpen) :
    control.pass.PassesOver program (control.position + 1) [] where
  mode_eq := rfl
  origin_le := le_rfl
  stack_eq := rfl
  passed_ge := by simp
  opened_eq := by
    rw [Program.stackAt_succ hget]
    exact hcontrol.opened_eq
  depth_eq := hcontrol.depth_eq

theorem leave (hcontrol : control.Executes program)
    (hget : program.get? control.position = some .leave) :
    control.leave.PassesOver program (control.position + 1) [] := by
  have hstack : program.stackAt (control.position + 1) = control.opened := by
    rw [Program.stackAt_succ hget, hcontrol.opened_eq]
    rfl
  unfold Control.leave
  cases hopened : control.opened with
  | nil =>
      exact ⟨rfl, le_rfl, rfl, by simp, by simp [hstack, hopened, Control.advance],
        by simp [hcontrol.depth_eq, hopened, Control.advance]⟩
  | cons start outer =>
      exact ⟨rfl, le_rfl, rfl, by simp, by simp [hstack, hopened, Control.advance],
        by simp [hcontrol.depth_eq, hopened, Control.advance]⟩

end Executes

namespace PassesOver

variable {control : Control} {origin : Nat} {passed : List Nat}

theorem countStep (hcontrol : control.PassesOver program origin passed) :
    control.countStep.PassesOver program origin passed :=
  ⟨hcontrol.mode_eq, hcontrol.origin_le, hcontrol.stack_eq, hcontrol.passed_ge,
    hcontrol.opened_eq, hcontrol.depth_eq⟩

/-- The scan is at its end exactly if it has come by no loop that is still open. -/
theorem depth_eq_iff (hcontrol : control.PassesOver program origin passed) :
    control.depth = control.opened.length ↔ passed = [] := by
  rw [hcontrol.depth_eq, Nat.add_eq_left, List.length_eq_zero_iff]

/-- Passing over the end that was looked for. -/
theorem skip_close (hcontrol : control.PassesOver program origin [])
    (hget : program.get? control.position = some .loopClose) :
    (control.skip .loopClose).Executes program := by
  have hdepth := hcontrol.depth_eq_iff.mpr rfl
  rw [Control.skip, if_pos hdepth]
  refine ⟨rfl, ?_, hdepth⟩
  change control.opened = program.stackAt (control.position + 1)
  rw [Program.stackAt_succ hget, hcontrol.stack_eq, hcontrol.opened_eq]
  rfl

/-- Passing over any other instruction. -/
theorem skip_of_ne {instruction : Instruction} (hcontrol : control.PassesOver program origin passed)
    (hget : program.get? control.position = some instruction)
    (hgoes : instruction = .loopClose → passed ≠ []) :
    ∃ passed', (control.skip instruction).PassesOver program origin passed' := by
  have hstack := Program.stackAt_succ hget
  rw [hcontrol.stack_eq] at hstack
  have hposition := Nat.le_succ_of_le hcontrol.origin_le
  cases instruction with
  | loopOpen =>
      refine ⟨control.position :: passed, hcontrol.mode_eq, hposition, hstack, ?_,
        hcontrol.opened_eq, ?_⟩
      · exact List.forall_mem_cons.mpr ⟨hcontrol.origin_le, hcontrol.passed_ge⟩
      · change control.depth + 1 = control.opened.length + (passed.length + 1)
        rw [hcontrol.depth_eq, Nat.add_assoc]
  | loopClose =>
      have hdepth : control.depth ≠ control.opened.length :=
        mt hcontrol.depth_eq_iff.mp (hgoes rfl)
      rw [Control.skip, if_neg hdepth]
      obtain ⟨innermost, passed', rfl⟩ := List.exists_cons_of_ne_nil (hgoes rfl)
      refine ⟨passed', hcontrol.mode_eq, hposition, hstack, ?_, hcontrol.opened_eq, ?_⟩
      · exact (List.forall_mem_cons.mp hcontrol.passed_ge).2
      · change control.depth - 1 = control.opened.length + passed'.length
        rw [hcontrol.depth_eq, List.length_cons, ← Nat.add_assoc, Nat.add_sub_cancel]
  | _ =>
      exact ⟨passed, hcontrol.mode_eq, hposition, hstack, hcontrol.passed_ge, hcontrol.opened_eq,
        hcontrol.depth_eq⟩

end PassesOver

end Control

namespace Run

variable {ι ο : Type} [Source ι] [Sink ο]

/-- The run began to pass over instructions in its transition after `began`, and has done nothing
else since. -/
structure PassesSince (program : Program) (run : Run ι ο) (began count : Nat) : Prop where
  began_lt : began < count
  running : (run.after program began).control.mode = .running
  skipping : ∀ between, began < between → between ≤ count →
    (run.after program between).control.mode = .skipping

theorem PassesSince.succ {run : Run ι ο} {began count : Nat}
    (hsince : run.PassesSince program began count)
    (hmode : (run.after program (count + 1)).control.mode = .skipping) :
    run.PassesSince program began (count + 1) where
  began_lt := Nat.lt_succ_of_lt hsince.began_lt
  running := hsince.running
  skipping := by
    intro between hbegan hbetween
    by_cases hlast : between = count + 1
    · rwa [hlast]
    · exact hsince.skipping between hbegan (by omega)

/-- The control of a run agrees with the brackets in the way that its mode asks for. -/
def Agrees (program : Program) (run : Run ι ο) (count : Nat) : Prop :=
  (run.after program count).control.Executes program ∨
    ∃ began passed, run.PassesSince program began count ∧
      (run.after program count).control.PassesOver program
        ((run.after program began).control.position + 1) passed

/-- A transition that keeps the control, or only counts a step, keeps the agreement. -/
theorem Agrees.of_still {run : Run ι ο} {count : Nat} (hagrees : run.Agrees program count)
    (hstill : (run.after program (count + 1)).control = (run.after program count).control ∨
      (run.after program (count + 1)).control = (run.after program count).control.countStep) :
    run.Agrees program (count + 1) := by
  have hexecutes : (run.after program count).control.Executes program →
      (run.after program (count + 1)).control.Executes program := by
    intro hcontrol
    cases hstill with
    | inl heq => rwa [heq]
    | inr heq =>
        rw [heq]
        exact hcontrol.countStep
  have hpasses : ∀ {origin passed},
      (run.after program count).control.PassesOver program origin passed →
        (run.after program (count + 1)).control.PassesOver program origin passed := by
    intro origin passed hcontrol
    cases hstill with
    | inl heq => rwa [heq]
    | inr heq =>
        rw [heq]
        exact hcontrol.countStep
  cases hagrees with
  | inl hcontrol => exact Or.inl (hexecutes hcontrol)
  | inr hagrees =>
      obtain ⟨began, passed, hsince, hcontrol⟩ := hagrees
      have hcontrol := hpasses hcontrol
      exact Or.inr ⟨began, passed, hsince.succ hcontrol.mode_eq, hcontrol⟩

/-- A transition that begins to pass over instructions starts with no loop come by. -/
theorem Agrees.of_begin {run : Run ι ο} {count : Nat}
    (hrunning : (run.after program count).control.mode = .running)
    (hpasses : (run.after program (count + 1)).control.PassesOver program
      ((run.after program count).control.position + 1) []) :
    run.Agrees program (count + 1) := by
  have hsince : run.PassesSince program count (count + 1) := by
    refine ⟨Nat.lt_succ_self count, hrunning, ?_⟩
    intro between hbegan hbetween
    have hlast : between = count + 1 := by omega
    rw [hlast]
    exact hpasses.mode_eq
  exact Or.inr ⟨count, [], hsince, hpasses⟩

theorem Agrees.executes {run : Run ι ο} {count : Nat} (hagrees : run.Agrees program count)
    (hmode : (run.after program count).control.mode = .running) :
    (run.after program count).control.Executes program := by
  cases hagrees with
  | inl hcontrol => exact hcontrol
  | inr hpasses =>
      obtain ⟨began, passed, -, hcontrol⟩ := hpasses
      rw [hcontrol.mode_eq] at hmode
      cases hmode

theorem Agrees.passesOver {run : Run ι ο} {count : Nat} (hagrees : run.Agrees program count)
    (hmode : (run.after program count).control.mode = .skipping) :
    ∃ began passed, run.PassesSince program began count ∧
      (run.after program count).control.PassesOver program
        ((run.after program began).control.position + 1) passed := by
  cases hagrees with
  | inl hcontrol =>
      rw [hcontrol.mode_eq] at hmode
      cases hmode
  | inr hpasses => exact hpasses

/-- Every transition keeps the agreement: those of the loop instructions by what they do to the
stack, those that pass over an instruction by what it does to the loops come by. -/
theorem Agrees.succ {run : Run ι ο} {count : Nat} (hagrees : run.Agrees program count) :
    run.Agrees program (count + 1) := by
  have hafter : (run.after program (count + 1)).control =
      ((run.after program count).next program).1.control := by
    rw [after_succ]
  have htransition := (run.after program count).next_transition program
  generalize (run.after program count).next program = next at hafter htransition
  cases htransition with
  | ended => exact hagrees.of_still (Or.inl hafter)
  | halt => exact hagrees.of_still (Or.inl hafter)
  | exhausted => exact hagrees.of_still (Or.inl hafter)
  | unmatched => exact hagrees.of_still (Or.inr hafter)
  | mishap => exact hagrees.of_still (Or.inr hafter)
  | @skip instruction hready hmode =>
      obtain ⟨began, passed, hsince, hcontrol⟩ := hagrees.passesOver hmode
      by_cases hend : instruction = .loopClose ∧ passed = []
      · obtain ⟨rfl, rfl⟩ := hend
        apply Or.inl
        rw [hafter]
        exact hcontrol.countStep.skip_close hready.get?_eq
      · have hgoes : instruction = .loopClose → passed ≠ [] := fun heq hnil => hend ⟨heq, hnil⟩
        obtain ⟨passed', hpasses⟩ := hcontrol.countStep.skip_of_ne hready.get?_eq hgoes
        have hmode' : (run.after program (count + 1)).control.mode = .skipping := by
          rw [hafter]
          exact hpasses.mode_eq
        apply Or.inr
        refine ⟨began, passed', hsince.succ hmode', ?_⟩
        rw [hafter]
        exact hpasses
  | enter hready hmode =>
      apply Or.inl
      rw [hafter]
      exact (hagrees.executes hmode).countStep.enter hready.get?_eq
  | pass hready hmode =>
      apply Agrees.of_begin hmode
      rw [hafter]
      exact (hagrees.executes hmode).countStep.pass hready.get?_eq
  | back hready hmode hback =>
      apply Or.inl
      rw [hafter]
      exact (hagrees.executes hmode).countStep.back? hback
  | leave hready hmode =>
      apply Agrees.of_begin hmode
      rw [hafter]
      exact (hagrees.executes hmode).countStep.leave hready.get?_eq
  | plain hready hmode hplain =>
      apply Or.inl
      rw [hafter]
      exact (hagrees.executes hmode).countStep.advance hready.get?_eq hplain.1

/-- In every state that a run reaches, its control agrees with the brackets. -/
theorem agrees_of_start (program : Program) (machine : Machine) (input : ι) (output : ο)
    (count : Nat) : (machine.start input output).Agrees program count := by
  induction count with
  | zero => exact Or.inl ⟨rfl, rfl, rfl⟩
  | succ count ih => exact ih.succ

/-- A run never leaves its program: it goes back only to a loop that it has open. -/
theorem position_le_size (program : Program) (machine : Machine) (input : ι) (output : ο)
    (count : Nat) :
    ((machine.start input output).after program count).control.position ≤ program.size := by
  induction count with
  | zero => exact Nat.zero_le _
  | succ count ih =>
      have hexecutes := (agrees_of_start program machine input output count).executes
      rw [after_succ]
      generalize (machine.start input output).after program count = run at ih hexecutes
      have hready : ∀ {instruction}, run.Ready program instruction →
          run.control.position + 1 ≤ program.size :=
        fun hready => Program.lt_size_of_get? hready.get?_eq
      have htransition := run.next_transition program
      generalize run.next program = next at htransition
      cases htransition with
      | ended | halt | exhausted | unmatched | mishap => exact ih
      | skip hskip => simpa using hready hskip
      | enter henter => simpa using hready henter
      | pass hpass => simpa using hready hpass
      | leave hleave => simpa using hready hleave
      | plain hplain => simpa using hready hplain
      | back _ hmode hback =>
          have hmem := List.mem_of_head? (Control.head?_opened_of_back? hback)
          rw [(hexecutes hmode).countStep.opened_eq] at hmem
          have hlt := Program.lt_of_mem_stackAt hmem
          exact (Nat.le_of_lt hlt).trans ih

/-- While instructions are passed over, the loops come by are those on the stack that start behind
the instruction with which the passing over began. -/
theorem countP_openLoops {control : Control} {began : Nat} {passed : List Nat}
    (hcontrol : control.PassesOver program (began + 1) passed) :
    (program.openLoops control.position).countP (began < ·) = passed.length := by
  have hpassed : passed.countP (began < ·) = passed.length := by
    rw [List.countP_eq_length]
    intro start hmem
    exact decide_eq_true (hcontrol.passed_ge start hmem)
  have haround : (program.stackAt (began + 1)).countP (began < ·) = 0 := by
    rw [List.countP_eq_zero]
    intro start hmem
    have hlt := Program.lt_of_mem_stackAt hmem
    simpa using Nat.le_of_lt_succ hlt
  calc (program.openLoops control.position).countP (began < ·)
      = (passed ++ program.stackAt (began + 1)).countP (began < ·) := by
        rw [Program.openLoops_eq, List.countP_reverse, hcontrol.stack_eq]
    _ = passed.length + 0 := by rw [List.countP_append, hpassed, haround]
    _ = passed.length := Nat.add_zero _

/-- Neither the open loops nor those come by are more than the loops on the stack. -/
theorem depth_le_of_agrees {run : Run ι ο} {count : Nat} (hagrees : run.Agrees program count) :
    let control := (run.after program count).control
    control.opened.length ≤ control.depth ∧
      control.depth ≤ (program.openLoops control.position).length := by
  intro control
  rw [Program.openLoops_eq, List.length_reverse]
  cases hagrees with
  | inl hcontrol =>
      rw [← hcontrol.opened_eq]
      exact ⟨hcontrol.depth_eq.ge, hcontrol.depth_eq.le⟩
  | inr hpasses =>
      obtain ⟨began, passed, -, hcontrol⟩ := hpasses
      have htail := (List.tail_suffix
        (program.stackAt ((run.after program began).control.position + 1))).length_le
      rw [← hcontrol.opened_eq] at htail
      rw [hcontrol.depth_eq, hcontrol.stack_eq, List.length_append]
      exact ⟨Nat.le_add_right _ _, by omega⟩

/-- **The control of a run agrees with the brackets of its program.**  In every state that a run
reaches, it stands in the program.  While it executes instructions, its open loops are exactly the
loops around its position, and its depth is their number.  While it passes over instructions, its
open loops start in order at `?` before its position, and the depth counts in addition the `?` that
it has come by since it began to pass over instructions and that are not closed yet.  So no depth is
lowered below zero, and none is greater than the number of loops around the position. -/
theorem control_agrees_with_brackets (program : Program) (machine : Machine) (input : ι)
    (output : ο) (count : Nat) :
    let run := machine.start input output
    let control := (run.after program count).control
    control.position ≤ program.size ∧
    (control.mode = .running →
      control.opened.reverse = program.openLoops control.position ∧
      control.depth = control.opened.length) ∧
    (control.mode = .skipping →
      control.opened.length ≤ control.depth ∧
      control.opened.reverse.Pairwise (· < ·) ∧
      (∀ start ∈ control.opened,
        start < control.position ∧ program.get? start = some .loopOpen) ∧
      ∃ began, run.PassesSince program began count ∧
        control.depth - control.opened.length =
          (program.openLoops control.position).countP
            ((run.after program began).control.position < ·)) ∧
    (control.mode = .skipping → program.get? control.position = some .loopClose →
      control.depth ≠ control.opened.length → 0 < control.depth) ∧
    (control.mode = .running → control.opened ≠ [] → 0 < control.depth) ∧
    control.opened.length ≤ control.depth ∧
    control.depth ≤ (program.openLoops control.position).length ∧
    control.depth ≤ program.nestingDepth := by
  intro run control
  have hagrees : run.Agrees program count := agrees_of_start program machine input output count
  have hposition : control.position ≤ program.size :=
    position_le_size program machine input output count
  have hopened : control.opened <:+ program.stackAt control.position := by
    cases hagrees with
    | inl hcontrol => rw [← hcontrol.opened_eq]
    | inr hpasses =>
        obtain ⟨began, passed, -, hcontrol⟩ := hpasses
        rw [hcontrol.opened_eq, hcontrol.stack_eq]
        exact (List.tail_suffix _).trans (List.suffix_append _ _)
  obtain ⟨hopened_le, hdepth_le⟩ := depth_le_of_agrees hagrees
  have hnesting := hdepth_le.trans (Program.length_openLoops_le hposition)
  refine ⟨hposition, ?_, ?_, ?_, ?_, hopened_le, hdepth_le, hnesting⟩
  · intro hmode
    have hcontrol := hagrees.executes hmode
    rw [Program.openLoops_eq, ← hcontrol.opened_eq]
    exact ⟨rfl, hcontrol.depth_eq⟩
  · intro hmode
    obtain ⟨began, passed, hsince, hcontrol⟩ := hagrees.passesOver hmode
    have hpairwise := (Program.pairwise_stackAt control.position).sublist hopened.sublist
    refine ⟨hopened_le, List.pairwise_reverse.mpr hpairwise, ?_, began, hsince, ?_⟩
    · intro start hmem
      have hstack := hopened.mem hmem
      exact ⟨Program.lt_of_mem_stackAt hstack, Program.get?_of_mem_stackAt hstack⟩
    · rw [countP_openLoops hcontrol, hcontrol.depth_eq, Nat.add_sub_cancel_left]
  · intro _ _ hdepth
    exact Nat.zero_lt_of_lt (Nat.lt_of_le_of_ne hopened_le hdepth.symm)
  · intro _ hnonempty
    exact (List.length_pos_iff.mpr hnonempty).trans_le hopened_le

end Run

end LetterMachine
