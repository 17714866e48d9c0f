import LetterMachine.Proofs.LoopControl

/-!
# Runs that jump by the loop table

A run searches for the ends of its loops while it goes on.  The runs of this file know the loop
table instead: they keep no open loops and pass over nothing, but jump to where execution goes on.
Both kinds of runs execute the same instructions one after the other, work on the same registers,
read and write the same bytes, and come to the same end.
-/

namespace LetterMachine

namespace Program

variable (program : Program)

/-- Where execution goes on behind the loop that starts at `start`: after its end, or at the end of
the program if the loop has none. -/
def behindLoop (start : Nat) : Nat :=
  match program.loops.partner? start with
  | some close => close + 1
  | none => program.size

/-- The first `\` from a position on that ends no loop. -/
def unpairedClose? (position : Nat) : Option Nat :=
  (List.range program.size).find? fun close =>
    position ≤ close ∧ program.get? close = some .loopClose ∧
      program.loops.partner? close = none

/-- Where execution goes on behind the next `\` that ends no loop. -/
def behindUnpairedClose (position : Nat) : Nat :=
  match program.unpairedClose? position with
  | some close => close + 1
  | none => program.size

/-- Where execution goes on after a `!`: behind the innermost loop around it, or behind the next `\`
that ends no loop if there is no loop around it. -/
def behindLeave (position : Nat) : Nat :=
  match (program.openLoops position).getLast? with
  | some start => program.behindLoop start
  | none => program.behindUnpairedClose (position + 1)

end Program

/-- A run of a program that knows the loop table. -/
structure TableRun (ι ο : Type) where
  workspace : Workspace ι ο
  position : Nat := 0
  status : Status := .working

namespace TableRun

variable {ι ο : Type} [Source ι] [Sink ο]

/-- Executes an instruction, and jumps to the next one. -/
def execute (program : Program) (run : TableRun ι ο) (instruction : Instruction) : TableRun ι ο :=
  match instruction with
  | .loopOpen =>
    let (condition, workspace) := run.workspace.takeCondition
    let target := if condition then run.position + 1 else program.behindLoop run.position
    { run with workspace := workspace, position := target }
  | .loopClose =>
    match program.loops.partner? run.position with
    | some start => { run with position := start }
    | none => { run with status := .failed (.unmatchedLoopClose run.position) }
  | .leave => { run with position := program.behindLeave run.position }
  | instruction =>
    match run.workspace.execute instruction with
    | (workspace, none) => { run with workspace := workspace, position := run.position + 1 }
    | (workspace, some mishap) =>
      { run with workspace := workspace, status := .failed (mishap.failureAt run.position) }

/-- Executes the next instruction, or ends the run.  A run that has ended stays as it is. -/
def next (program : Program) (run : TableRun ι ο) : TableRun ι ο × List Event :=
  if run.status = .working then
    match program.get? run.position with
    | none => ({ run with status := .halted }, [])
    | some instruction =>
      (run.execute program instruction,
        [.instruction run.position instruction run.workspace.active])
  else
    (run, [])

/-- The run after at most `count` instructions. -/
def after (program : Program) : Nat → TableRun ι ο → TableRun ι ο
  | 0, run => run
  | count + 1, run => ((run.after program count).next program).1

/-- The instructions that are executed in the meantime. -/
def events (program : Program) : Nat → TableRun ι ο → List Event
  | 0, _ => []
  | count + 1, run => run.events program count ++ ((run.after program count).next program).2

/-- The run comes to its end with a status, and leaves a workspace behind. -/
def EndsWith (program : Program) (run : TableRun ι ο) (workspace : Workspace ι ο)
    (status : Status) : Prop :=
  status ≠ .working ∧
    ∃ count, (run.after program count).workspace = workspace ∧
      (run.after program count).status = status

end TableRun

/-- Whether an event tells of an instruction that is executed. -/
def Event.isExecution : Event → Bool
  | .instruction .. => true
  | _ => false

/-! ## Where passing over instructions comes to an end -/

namespace Program

variable {program : Program}

/-- Where execution goes on after instructions have been passed over up to a position, if `around`
was the stack where that began. -/
def behind (program : Program) (around : List Nat) (position : Nat) : Nat :=
  match around with
  | start :: _ => program.behindLoop start
  | [] => program.behindUnpairedClose position

theorem behindLeave_eq (position : Nat) :
    program.behindLeave position =
      program.behind (program.stackAt position) (position + 1) := by
  rw [behindLeave, openLoops_eq, List.getLast?_reverse]
  cases program.stackAt position with
  | nil => rfl
  | cons start outer => rfl

theorem behindUnpairedClose_of_end {position : Nat} (hend : program.size ≤ position) :
    program.behindUnpairedClose position = program.size := by
  have hnone : program.unpairedClose? position = none := by
    rw [unpairedClose?, List.find?_eq_none]
    intro close hmem
    have hclose := List.mem_range.mp hmem
    simp only [decide_eq_true_eq, not_and]
    intro hle
    omega
  rw [behindUnpairedClose, hnone]

theorem behindUnpairedClose_of_unpaired {position : Nat}
    (hget : program.get? position = some .loopClose) (hstack : program.stackAt position = []) :
    program.behindUnpairedClose position = position + 1 := by
  have hfound : program.unpairedClose? position = some position := by
    rw [unpairedClose?, List.find?_range_eq_some]
    refine ⟨?_, List.mem_range.mpr (lt_size_of_get? hget), ?_⟩
    · simp [hget, partner?_of_close hget, hstack]
    · intro close hclose
      simp [Nat.not_le_of_lt hclose]
  rw [behindUnpairedClose, hfound]

theorem behindUnpairedClose_succ {position : Nat}
    (hpaired : program.get? position = some .loopClose → program.stackAt position ≠ []) :
    program.behindUnpairedClose (position + 1) = program.behindUnpairedClose position := by
  have hsame : program.unpairedClose? (position + 1) = program.unpairedClose? position := by
    rw [unpairedClose?, unpairedClose?]
    congr 1
    funext close
    rw [decide_eq_decide]
    constructor
    · intro ⟨hle, hclose⟩
      exact ⟨Nat.le_of_succ_le hle, hclose⟩
    · intro ⟨hle, hget, hpartner⟩
      have hne : close ≠ position := by
        intro heq
        rw [heq] at hget hpartner
        rw [partner?_of_close hget, List.head?_eq_none_iff] at hpartner
        exact hpaired hget hpartner
      exact ⟨Nat.lt_of_le_of_ne hle hne.symm, hget, hpartner⟩
  rw [behindUnpairedClose, behindUnpairedClose, hsame]

/-- An instruction that is passed over without being the end changes nothing. -/
theorem behind_succ {around passed : List Nat} {position : Nat}
    (hstack : program.stackAt position = passed ++ around)
    (hgoes : program.get? position = some .loopClose → passed ≠ []) :
    program.behind around (position + 1) = program.behind around position := by
  cases around with
  | cons start outer => rfl
  | nil =>
      apply behindUnpairedClose_succ
      rw [hstack, List.append_nil]
      exact hgoes

/-- The end of the loop that is innermost where passing over began is the end looked for. -/
theorem behind_of_close {position : Nat} (hget : program.get? position = some .loopClose) :
    program.behind (program.stackAt position) position = position + 1 := by
  cases hstack : program.stackAt position with
  | nil => exact behindUnpairedClose_of_unpaired hget hstack
  | cons start outer =>
      have hhead : (program.stackAt position).head? = some start := by rw [hstack, List.head?_cons]
      have hopen := get?_of_mem_stackAt (List.mem_of_head? hhead)
      have hpartner : program.loops.partner? start = some position :=
        (partner?_eq_some_iff_of_open hopen).mpr (mem_pairs_iff.mpr ⟨hget, hhead⟩)
      rw [behind, behindLoop, hpartner]

/-- What is not found before the end of the program is found nowhere. -/
theorem behind_of_end {around passed : List Nat}
    (hstack : program.stackAt program.size = passed ++ around) :
    program.behind around program.size = program.size := by
  cases around with
  | nil => exact behindUnpairedClose_of_end le_rfl
  | cons start outer =>
      have hmem : start ∈ program.stackAt program.size := by
        rw [hstack]
        exact List.mem_append_right _ List.mem_cons_self
      have hpartner := (partner?_eq_none_iff_of_open (get?_of_mem_stackAt hmem)).mpr hmem
      rw [behind, behindLoop, hpartner]

end Program

namespace Control

variable {program : Program} {control : Control}

/-- The position of the next instruction that is executed.  While instructions are passed over, the
loops come by lie on top of the stack, and below them is the stack where that began. -/
def resumption (program : Program) (control : Control) : Nat :=
  match control.mode with
  | .running => control.position
  | .skipping =>
    let around :=
      (program.stackAt control.position).drop (control.depth - control.opened.length)
    program.behind around control.position

theorem Executes.resumption_eq (hcontrol : control.Executes program) :
    control.resumption program = control.position := by
  rw [resumption, hcontrol.mode_eq]

theorem PassesOver.resumption_eq {origin : Nat} {passed : List Nat}
    (hcontrol : control.PassesOver program origin passed) :
    control.resumption program = program.behind (program.stackAt origin) control.position := by
  have hpassed : control.depth - control.opened.length = passed.length := by
    rw [hcontrol.depth_eq, Nat.add_sub_cancel_left]
  simp only [resumption, hcontrol.mode_eq]
  rw [hpassed, hcontrol.stack_eq, List.drop_left]

/-- Passing over an instruction does not change where execution goes on. -/
theorem PassesOver.resumption_skip {origin : Nat} {passed : List Nat} {instruction : Instruction}
    (hcontrol : control.PassesOver program origin passed)
    (hget : program.get? control.position = some instruction) :
    (control.skip instruction).resumption program = control.resumption program := by
  by_cases hend : instruction = .loopClose ∧ passed = []
  · obtain ⟨rfl, rfl⟩ := hend
    have hstack : program.stackAt control.position = program.stackAt origin := hcontrol.stack_eq
    rw [(hcontrol.skip_close hget).resumption_eq, hcontrol.resumption_eq, ← hstack,
      Program.behind_of_close hget, position_skip]
  · have hgoes : instruction = .loopClose → passed ≠ [] := fun heq hnil => hend ⟨heq, hnil⟩
    obtain ⟨passed', hpasses⟩ := hcontrol.skip_of_ne hget hgoes
    rw [hpasses.resumption_eq, hcontrol.resumption_eq, position_skip]
    apply Program.behind_succ hcontrol.stack_eq
    intro hclose
    exact hgoes (Option.some.inj (hget.symm.trans hclose))

theorem PassesOver.resumption_of_end {origin : Nat} {passed : List Nat}
    (hcontrol : control.PassesOver program origin passed)
    (hposition : control.position = program.size) :
    control.resumption program = program.size := by
  have hstack := hcontrol.stack_eq
  rw [hposition] at hstack
  rw [hcontrol.resumption_eq, hposition, Program.behind_of_end hstack]

end Control

/-! ## The simulation -/

namespace TableRun

variable {ι ο : Type} [Source ι] [Sink ο] {program : Program}

theorem next_of_get? {run : TableRun ι ο} {instruction : Instruction}
    (hworking : run.status = .working) (hget : program.get? run.position = some instruction) :
    run.next program = (run.execute program instruction,
      [.instruction run.position instruction run.workspace.active]) := by
  rw [next, if_pos hworking, hget]

theorem next_of_end {run : TableRun ι ο} (hworking : run.status = .working)
    (hget : program.get? run.position = none) :
    run.next program = ({ run with status := .halted }, []) := by
  rw [next, if_pos hworking, hget]

theorem next_of_ended {run : TableRun ι ο} (hended : run.status ≠ .working) :
    run.next program = (run, []) := by
  rw [next, if_neg hended]

theorem execute_of_isPlain {instruction : Instruction} (hplain : Run.IsPlain instruction)
    (run : TableRun ι ο) :
    run.execute program instruction =
      match run.workspace.execute instruction with
      | (workspace, none) => { run with workspace := workspace, position := run.position + 1 }
      | (workspace, some mishap) =>
        { run with
          workspace := workspace
          status := .failed (mishap.failureAt run.position) } := by
  obtain ⟨hbracket, hleave⟩ := hplain
  cases instruction <;> first | rfl | exact absurd rfl hleave | cases hbracket

end TableRun

theorem Control.skipEvents_filter (control : Control) (instruction : Instruction) :
    (control.skipEvents instruction).filter Event.isExecution = [] := by
  unfold skipEvents
  split <;> rfl

theorem Workspace.reports_filter {ι ο : Type} (before after : Workspace ι ο)
    (instruction : Instruction) :
    (before.reports after instruction).filter Event.isExecution = [] := by
  unfold reports
  split
  · rfl
  · split <;> rfl
  · rfl

namespace Run

variable {ι ο : Type} [Source ι] [Sink ο] {program : Program}

/-- A run as the loop table sees it: it stands where the next instruction is executed. -/
def onTable (program : Program) (run : Run ι ο) : TableRun ι ο where
  workspace := run.workspace
  position := run.control.resumption program
  status := run.status

/-- A transition in which nothing happens as the loop table sees it: an instruction is passed
over. -/
structure Idles (program : Program) (run : Run ι ο) (next : Run ι ο × List Event) : Prop where
  position_lt : run.control.position < program.size
  position_next : next.1.control.position = run.control.position + 1
  onTable_next : next.1.onTable program = run.onTable program
  events_next : next.2.filter Event.isExecution = []

/-- A transition that the loop table sees as one of the run that jumps. -/
structure Moves (program : Program) (run : Run ι ο) (next : Run ι ο × List Event) : Prop where
  onTable_next : next.1.onTable program = ((run.onTable program).next program).1
  events_next : next.2.filter Event.isExecution = ((run.onTable program).next program).2

omit [Source ι] [Sink ο] in
theorem Idles.of_skip {run : Run ι ο} {instruction : Instruction} {origin : Nat}
    {passed : List Nat} (hcontrol : run.control.PassesOver program origin passed)
    (hget : program.get? run.control.position = some instruction) :
    run.Idles program ({ run with control := run.control.countStep.skip instruction },
      run.control.skipEvents instruction) where
  position_lt := Program.lt_size_of_get? hget
  position_next := Control.position_skip _ _
  onTable_next := by
    have hresumption := hcontrol.countStep.resumption_skip hget
    rw [onTable, onTable]
    congr 1
  events_next := Control.skipEvents_filter _ _

theorem Moves.of_ended {run : Run ι ο} (hended : run.status ≠ .working) :
    run.Moves program (run, []) := by
  have hnext : (run.onTable program).next program = (run.onTable program, []) :=
    TableRun.next_of_ended hended
  exact ⟨by rw [hnext], by rw [hnext]; rfl⟩

theorem Moves.of_end {run : Run ι ο} {events : List Event} (hworking : run.status = .working)
    (hend : run.control.resumption program = program.size)
    (hevents : events.filter Event.isExecution = []) :
    run.Moves program ({ run with status := .halted }, events) := by
  have hget : program.get? (run.onTable program).position = none :=
    Program.get?_eq_none_iff.mpr hend.ge
  have hstatus : (run.onTable program).status = .working := hworking
  have hnext := TableRun.next_of_end hstatus hget
  exact ⟨by rw [hnext]; rfl, by rw [hnext, hevents]⟩

/-- Where a run executes an instruction, so does the run that jumps. -/
theorem Moves.of_ready {run : Run ι ο} {instruction : Instruction} {next : Run ι ο × List Event}
    (hcontrol : run.control.Executes program) (hready : run.Ready program instruction)
    (honTable : next.1.onTable program =
      TableRun.execute program ⟨run.workspace, run.control.position, run.status⟩ instruction)
    (hevents : next.2.filter Event.isExecution = [run.announce instruction]) :
    run.Moves program next := by
  have hstands : run.onTable program = ⟨run.workspace, run.control.position, run.status⟩ := by
    rw [onTable, hcontrol.resumption_eq]
  have hnext : TableRun.next program ⟨run.workspace, run.control.position, run.status⟩ =
      (TableRun.execute program ⟨run.workspace, run.control.position, run.status⟩ instruction,
        [run.announce instruction]) := TableRun.next_of_get? hready.working hready.get?_eq
  exact ⟨by rw [hstands, hnext, honTable], by rw [hstands, hnext, hevents]⟩

/-- Without a limit of steps, every transition of a run that agrees with the brackets is of one of
the two kinds. -/
theorem idles_or_moves {run : Run ι ο} (hlimit : run.limit = none)
    (hposition : run.control.position ≤ program.size)
    (hexecutes : run.control.mode = .running → run.control.Executes program)
    (hpasses : run.control.mode = .skipping →
      ∃ origin passed, run.control.PassesOver program origin passed) :
    run.Idles program (run.next program) ∨ run.Moves program (run.next program) := by
  have htransition := run.next_transition program
  generalize run.next program = next at htransition
  cases htransition with
  | ended hended => exact Or.inr (Moves.of_ended hended)
  | halt hworking hget =>
      have hend : run.control.position = program.size :=
        hposition.antisymm (Program.get?_eq_none_iff.mp hget)
      apply Or.inr
      apply Moves.of_end hworking _ rfl
      cases hmode : run.control.mode with
      | running => rw [(hexecutes hmode).resumption_eq, hend]
      | skipping =>
          obtain ⟨origin, passed, hcontrol⟩ := hpasses hmode
          exact hcontrol.resumption_of_end hend
  | exhausted _ _ hexhausted =>
      rw [exhausted?, hlimit] at hexhausted
      cases hexhausted
  | skip hready hmode =>
      obtain ⟨origin, passed, hcontrol⟩ := hpasses hmode
      exact Or.inl (Idles.of_skip hcontrol hready.get?_eq)
  | enter hready hmode htake =>
      have hcontrol := hexecutes hmode
      have hafter := (hcontrol.countStep.enter hready.get?_eq).resumption_eq
      apply Or.inr
      apply Moves.of_ready hcontrol hready _ rfl
      simp only [onTable, TableRun.execute, htake, hafter]
      rfl
  | pass hready hmode htake =>
      have hcontrol := hexecutes hmode
      have hafter := (hcontrol.countStep.pass hready.get?_eq).resumption_eq
      have hstack := Program.stackAt_succ hready.get?_eq
      apply Or.inr
      apply Moves.of_ready hcontrol hready _ rfl
      simp only [onTable, TableRun.execute, htake, hafter, Control.position_countStep, hstack]
      rfl
  | @back control hready hmode hback =>
      have hcontrol := hexecutes hmode
      have hafter := (hcontrol.countStep.back? hback).resumption_eq
      have hhead := Control.head?_opened_of_back? hback
      have hpartner : program.loops.partner? run.control.position = some control.position := by
        rw [Program.partner?_of_close hready.get?_eq, ← hcontrol.opened_eq]
        exact hhead
      apply Or.inr
      apply Moves.of_ready hcontrol hready _ rfl
      simp only [onTable, TableRun.execute, hafter, hpartner]
  | unmatched hready hmode hopened =>
      have hcontrol := hexecutes hmode
      have hpartner : program.loops.partner? run.control.position = none := by
        rw [Program.partner?_of_close hready.get?_eq, ← hcontrol.opened_eq, hopened]
        rfl
      apply Or.inr
      apply Moves.of_ready hcontrol hready _ rfl
      simp only [onTable, TableRun.execute, hcontrol.countStep.resumption_eq, hpartner]
      rfl
  | leave hready hmode =>
      have hcontrol := hexecutes hmode
      have hafter := (hcontrol.countStep.leave hready.get?_eq).resumption_eq
      have hstack := Program.stackAt_succ hready.get?_eq
      apply Or.inr
      apply Moves.of_ready hcontrol hready _ rfl
      simp only [onTable, TableRun.execute, hafter, Program.behindLeave_eq,
        Control.position_countStep, Control.position_leave, hstack]
      rfl
  | plain hready hmode hplain hexecute =>
      have hcontrol := hexecutes hmode
      have hafter := (hcontrol.countStep.advance hready.get?_eq hplain.1).resumption_eq
      apply Or.inr
      apply Moves.of_ready hcontrol hready
      · simp only [onTable, TableRun.execute_of_isPlain hplain, hexecute, hafter]
        rfl
      · rw [List.filter_cons, Workspace.reports_filter]
        rfl
  | mishap hready hmode hplain hexecute =>
      have hcontrol := hexecutes hmode
      apply Or.inr
      apply Moves.of_ready hcontrol hready _ rfl
      simp only [onTable, TableRun.execute_of_isPlain hplain, hexecute,
        hcontrol.countStep.resumption_eq]
      rfl

/-- The course of a run up to `count` and that of a run that jumps up to `jumps` are the same, as
the loop table sees them. -/
structure SameCourse (program : Program) (run : Run ι ο) (count : Nat) (table : TableRun ι ο)
    (jumps : Nat) : Prop where
  onTable_eq : (run.after program count).onTable program = table.after program jumps
  events_eq : (run.events program count).filter Event.isExecution = table.events program jumps

theorem SameCourse.idle {run : Run ι ο} {table : TableRun ι ο} {count jumps : Nat}
    (hcourse : run.SameCourse program count table jumps)
    (hidles : (run.after program count).Idles program ((run.after program count).next program)) :
    run.SameCourse program (count + 1) table jumps where
  onTable_eq := by rw [after_succ, hidles.onTable_next, hcourse.onTable_eq]
  events_eq := by
    rw [events_succ, List.filter_append, hidles.events_next, List.append_nil, hcourse.events_eq]

theorem SameCourse.move {run : Run ι ο} {table : TableRun ι ο} {count jumps : Nat}
    (hcourse : run.SameCourse program count table jumps)
    (hmoves : (run.after program count).Moves program ((run.after program count).next program)) :
    run.SameCourse program (count + 1) table (jumps + 1) where
  onTable_eq := by
    rw [after_succ, hmoves.onTable_next, hcourse.onTable_eq]
    rfl
  events_eq := by
    rw [events_succ, List.filter_append, hmoves.events_next, hcourse.events_eq,
      hcourse.onTable_eq]
    rfl

section FromStart

variable (program : Program) (bank : Bank) (active : Letter) (input : ι) (output : ο)

theorem idles_or_moves_of_start (count : Nat) :
    let run := (Machine.start { bank, active } input output).after program count
    run.Idles program (run.next program) ∨ run.Moves program (run.next program) := by
  intro run
  have hagrees := agrees_of_start program { bank, active } input output count
  have hlimit : run.limit = none := limit_after program _ count
  have hposition := position_le_size program { bank, active } input output count
  apply idles_or_moves hlimit hposition hagrees.executes
  intro hmode
  obtain ⟨began, passed, -, hcontrol⟩ := hagrees.passesOver hmode
  exact ⟨_, passed, hcontrol⟩

/-- The run that jumps keeps up with the other. -/
theorem exists_jumps (count : Nat) :
    ∃ jumps ≤ count, (Machine.start { bank, active } input output).SameCourse program count
      { workspace := ⟨bank, active, input, output⟩ } jumps := by
  induction count with
  | zero => exact ⟨0, le_rfl, rfl, rfl⟩
  | succ count ih =>
      obtain ⟨jumps, hjumps, hcourse⟩ := ih
      cases idles_or_moves_of_start program bank active input output count with
      | inl hidles => exact ⟨jumps, Nat.le_succ_of_le hjumps, hcourse.idle hidles⟩
      | inr hmoves => exact ⟨jumps + 1, Nat.succ_le_succ hjumps, hcourse.move hmoves⟩

/-- Passing over instructions comes to an end, at the latest with the program. -/
theorem exists_move {table : TableRun ι ο} {count jumps : Nat}
    (hcourse : (Machine.start { bank, active } input output).SameCourse program count table
      jumps) :
    ∃ later ≥ count, (Machine.start { bank, active } input output).SameCourse program (later + 1)
      table (jumps + 1) := by
  generalize hleft : program.size -
    ((Machine.start { bank, active } input output).after program count).control.position = left
  induction left using Nat.strong_induction_on generalizing count with
  | _ left ih =>
      cases idles_or_moves_of_start program bank active input output count with
      | inl hidles =>
          have hposition := hidles.position_next
          have hlt := hidles.position_lt
          rw [← after_succ] at hposition
          obtain ⟨later, hlater, hnext⟩ := ih _ (by omega) (hcourse.idle hidles) rfl
          exact ⟨later, Nat.le_of_succ_le hlater, hnext⟩
      | inr hmoves => exact ⟨count, le_rfl, hcourse.move hmoves⟩

/-- The run keeps up with the one that jumps. -/
theorem exists_count (jumps : Nat) :
    ∃ count ≥ jumps, (Machine.start { bank, active } input output).SameCourse program count
      { workspace := ⟨bank, active, input, output⟩ } jumps := by
  induction jumps with
  | zero => exact ⟨0, le_rfl, rfl, rfl⟩
  | succ jumps ih =>
      obtain ⟨count, hcount, hcourse⟩ := ih
      obtain ⟨later, hlater, hnext⟩ := exists_move program bank active input output hcourse
      exact ⟨later + 1, Nat.succ_le_succ (hcount.trans hlater), hnext⟩

end FromStart

/-- A run stands as a run that jumps does: they have done the same work, and if the run executes
instructions they are at the same one. -/
structure Matches (run : Run ι ο) (table : TableRun ι ο) : Prop where
  workspace_eq : run.workspace = table.workspace
  status_eq : run.status = table.status
  position_eq : run.control.mode = .running → run.control.position = table.position

theorem SameCourse.matches {run : Run ι ο} {table : TableRun ι ο} {count jumps : Nat}
    (hcourse : run.SameCourse program count table jumps) :
    (run.after program count).Matches (table.after program jumps) := by
  rw [← hcourse.onTable_eq]
  refine ⟨rfl, rfl, ?_⟩
  intro hmode
  simp only [onTable, Control.resumption, hmode]

/-- **Searching for the ends of loops agrees with the loop table.**  From the same registers, the
same active register, the same input and the same output, and without a limit of steps, a run and
the run that jumps by the loop table keep up with each other: whatever one of them has come to, the
other comes to as well, and up to there both have executed the same instructions in the same order.
So one of them comes to an end exactly if the other does, in the same way and with the same work
done. -/
theorem matches_table_run (program : Program) (bank : Bank) (active : Letter) (input : ι)
    (output : ο) :
    let run := Machine.start { bank, active } input output
    let table : TableRun ι ο := { workspace := ⟨bank, active, input, output⟩ }
    (∀ count, ∃ jumps ≤ count,
      (run.after program count).Matches (table.after program jumps) ∧
      (run.events program count).filter Event.isExecution = table.events program jumps) ∧
    (∀ jumps, ∃ count ≥ jumps,
      (run.after program count).Matches (table.after program jumps) ∧
      (run.events program count).filter Event.isExecution = table.events program jumps) ∧
    ∀ workspace status,
      run.EndsWith program workspace status ↔ table.EndsWith program workspace status := by
  intro run table
  have hjumps := exists_jumps program bank active input output
  have hcount := exists_count program bank active input output
  refine ⟨?_, ?_, ?_⟩
  · intro count
    obtain ⟨jumps, hle, hcourse⟩ := hjumps count
    exact ⟨jumps, hle, hcourse.matches, hcourse.events_eq⟩
  · intro jumps
    obtain ⟨count, hge, hcourse⟩ := hcount jumps
    exact ⟨count, hge, hcourse.matches, hcourse.events_eq⟩
  · intro workspace status
    apply and_congr_right
    intro _
    constructor
    · rintro ⟨count, hworkspace, hstatus⟩
      obtain ⟨jumps, -, hcourse⟩ := hjumps count
      have hmatches := hcourse.matches
      exact ⟨jumps, hmatches.workspace_eq.symm.trans hworkspace,
        hmatches.status_eq.symm.trans hstatus⟩
    · rintro ⟨jumps, hworkspace, hstatus⟩
      obtain ⟨count, -, hcourse⟩ := hcount jumps
      have hmatches := hcourse.matches
      exact ⟨count, hmatches.workspace_eq.trans hworkspace,
        hmatches.status_eq.trans hstatus⟩

end Run

end LetterMachine
