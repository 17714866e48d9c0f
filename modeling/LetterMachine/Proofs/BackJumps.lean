import LetterMachine.Proofs.StepLimit
import LetterMachine.Proofs.UnclosedLoops
import Mathlib.Algebra.Order.BigOperators.Group.List

/-!
# What makes a run long

A step takes a run one instruction further, whether the instruction is executed or passed over,
unless it goes back from the end of a loop to its start.  So the steps of a run are its position and
the ways that it has gone back; `Run.steps_after_eq` keeps the account.  Every way back closes a
loop that the run has entered with a true condition, and takes it from the open loops.  Hence a run
is no longer than its ways back allow, and one without end enters loops without end.
-/

namespace LetterMachine

/-- A way back from the end of a loop to its start. -/
structure BackJump where
  close : Nat
  start : Nat
  deriving DecidableEq, Repr

namespace BackJump

/-- The number of instructions from the start of the loop to its end. -/
def cost (jump : BackJump) : Nat :=
  jump.close - jump.start + 1

def totalCost (jumps : List BackJump) : Nat :=
  (jumps.map cost).sum

@[simp]
theorem totalCost_nil : totalCost [] = 0 := rfl

@[simp]
theorem totalCost_singleton (jump : BackJump) : totalCost [jump] = jump.cost := by
  rw [totalCost, List.map_singleton, List.sum_singleton]

theorem totalCost_append (first second : List BackJump) :
    totalCost (first ++ second) = totalCost first + totalCost second := by
  rw [totalCost, List.map_append, List.sum_append]
  rfl

theorem totalCost_replicate (count : Nat) (jump : BackJump) :
    totalCost (List.replicate count jump) = count * jump.cost := by
  rw [totalCost, List.map_replicate, List.sum_replicate, Nat.nsmul_eq_mul]

theorem totalCost_le {jumps : List BackJump} {bound : Nat}
    (hbound : ∀ jump ∈ jumps, jump.cost ≤ bound) : totalCost jumps ≤ jumps.length * bound := by
  have hsum := List.sum_le_card_nsmul (jumps.map cost) bound (by simpa using hbound)
  rwa [List.length_map, Nat.nsmul_eq_mul] at hsum

end BackJump

namespace Event

def backJump? : Event → Option BackJump
  | .back close start => some ⟨close, start⟩
  | _ => none

def isEnter : Event → Bool
  | .enter _ _ => true
  | _ => false

end Event

/-- The steps counted that have not taken the run further: a failure at an instruction comes after
its step has been counted. -/
def Status.unfinished : Status → Nat
  | .working | .halted | .failed (.stepsExhausted _) => 0
  | .failed _ => 1

theorem Mishap.unfinished_failureAt (mishap : Mishap) (position : Nat) :
    (Status.failed (mishap.failureAt position)).unfinished = 1 := by
  cases mishap <;> rfl

namespace Control

theorem opened_skip (control : Control) (instruction : Instruction) :
    (control.skip instruction).opened = control.opened := by
  unfold skip
  split
  · rfl
  · split <;> rfl
  · rfl

theorem opened_leave (control : Control) : control.leave.opened = control.opened.tail := by
  unfold leave
  split <;> simp_all [advance]

end Control

namespace Run

variable {ι ο : Type} [Source ι] [Sink ο]

/-- The ways back that a run has gone in its first transitions. -/
def backJumps (program : Program) (count : Nat) (run : Run ι ο) : List BackJump :=
  (run.events program count).filterMap Event.backJump?

/-- How often a run has entered a loop in its first transitions. -/
def entries (program : Program) (count : Nat) (run : Run ι ο) : Nat :=
  (run.events program count).countP Event.isEnter

/-- The run executes a `?` with a true condition in its transition after `count` others. -/
def EntersLoop (program : Program) (run : Run ι ο) (count : Nat) : Prop :=
  ∃ start, run.ExecutesOpen program start count ∧
    (run.after program count).workspace.takeCondition.1 = true

variable {program : Program}

theorem backJumps_succ (run : Run ι ο) (count : Nat) :
    run.backJumps program (count + 1) =
      run.backJumps program count ++
        ((run.after program count).next program).2.filterMap Event.backJump? := by
  rw [backJumps, events_succ, List.filterMap_append]
  rfl

theorem entries_succ (run : Run ι ο) (count : Nat) :
    run.entries program (count + 1) =
      run.entries program count +
        ((run.after program count).next program).2.countP Event.isEnter := by
  rw [entries, events_succ, List.countP_append]
  rfl

theorem entries_le_add (program : Program) (run : Run ι ο) (count further : Nat) :
    run.entries program count ≤ run.entries program (count + further) := by
  rw [entries, entries, events_add, List.countP_append]
  exact Nat.le_add_right _ _

/-! ## One transition -/

omit [Source ι] [Sink ο] in
/-- The reports of an instruction are about registers only. -/
theorem exists_of_mem_reports {before after : Workspace ι ο} {instruction : Instruction}
    {event : Event} (hmem : event ∈ before.reports after instruction) :
    ∃ letter contents, event = .register letter contents := by
  unfold Workspace.reports at hmem
  split at hmem
  · cases hmem
  · split at hmem
    · exact ⟨_, _, List.mem_singleton.mp hmem⟩
    · rcases List.mem_pair.mp hmem with htarget | hactive
      · exact ⟨_, _, htarget⟩
      · exact ⟨_, _, hactive⟩
  · exact ⟨_, _, List.mem_singleton.mp hmem⟩

omit [Source ι] [Sink ο] in
theorem filterMap_backJump?_reports (before after : Workspace ι ο) (instruction : Instruction) :
    (before.reports after instruction).filterMap Event.backJump? = [] := by
  rw [List.filterMap_eq_nil_iff]
  intro event hmem
  obtain ⟨letter, contents, rfl⟩ := exists_of_mem_reports hmem
  rfl

omit [Source ι] [Sink ο] in
theorem countP_isEnter_reports (before after : Workspace ι ο) (instruction : Instruction) :
    (before.reports after instruction).countP Event.isEnter = 0 := by
  rw [List.countP_eq_zero]
  intro event hmem
  obtain ⟨letter, contents, rfl⟩ := exists_of_mem_reports hmem
  simp [Event.isEnter]

/-- Where a transition takes a run: one instruction further, back to the start of a loop, or
nowhere. -/
inductive Motion (program : Program) (run : Run ι ο) : Run ι ο × List Event → Prop where
  | forward {instruction : Instruction} {next : Run ι ο} {events : List Event} (left : Nat)
      (hready : run.Ready program instruction)
      (hposition : next.control.position = run.control.position + 1)
      (hsteps : next.control.steps = run.control.steps + 1) (hstatus : next.status = .working)
      (hjumps : events.filterMap Event.backJump? = [])
      (hopened : next.control.opened.length + left =
        run.control.opened.length + events.countP Event.isEnter)
      (hleft : 0 < left → instruction = .leave)
      (henters : 0 < events.countP Event.isEnter → instruction = .loopOpen ∧
        run.control.mode = .running ∧ run.workspace.takeCondition.1 = true) :
      Motion program run (next, events)
  | back {start : Nat} {next : Run ι ο} {events : List Event}
      (hready : run.Ready program .loopClose) (hmode : run.control.mode = .running)
      (hopened : run.control.opened = start :: next.control.opened)
      (hposition : next.control.position = start)
      (hsteps : next.control.steps = run.control.steps + 1) (hstatus : next.status = .working)
      (hjumps : events.filterMap Event.backJump? = [⟨run.control.position, start⟩])
      (hentries : events.countP Event.isEnter = 0) :
      Motion program run (next, events)
  | rest {next : Run ι ο} {events : List Event} (hcontrol : next.control = run.control)
      (hstatus : next.status.unfinished = run.status.unfinished)
      (hjumps : events.filterMap Event.backJump? = [])
      (hentries : events.countP Event.isEnter = 0) :
      Motion program run (next, events)
  | failure {instruction : Instruction} {next : Run ι ο} {events : List Event}
      (hready : run.Ready program instruction) (hcontrol : next.control = run.control.countStep)
      (hstatus : next.status.unfinished = 1) (hjumps : events.filterMap Event.backJump? = [])
      (hentries : events.countP Event.isEnter = 0) :
      Motion program run (next, events)

omit [Source ι] [Sink ο] in
theorem unfinished_of_working {run : Run ι ο} (hworking : run.status = .working) :
    run.status.unfinished = 0 := by
  rw [hworking]
  rfl

/-- A transition takes a run to one of these places. -/
theorem next_motion (program : Program) (run : Run ι ο) :
    Motion program run (run.next program) := by
  have htransition := run.next_transition program
  generalize run.next program = next at htransition
  cases htransition with
  | ended => exact .rest rfl rfl rfl rfl
  | halt hworking => exact .rest rfl (unfinished_of_working hworking).symm rfl rfl
  | exhausted hworking => exact .rest rfl (unfinished_of_working hworking).symm rfl rfl
  | @skip instruction hready hmode =>
      have hjumps : (run.control.skipEvents instruction).filterMap Event.backJump? = [] := by
        unfold Control.skipEvents
        split <;> rfl
      have hentries : (run.control.skipEvents instruction).countP Event.isEnter = 0 := by
        unfold Control.skipEvents
        split <;> rfl
      have hopened : (run.control.countStep.skip instruction).opened = run.control.opened :=
        Control.opened_skip _ instruction
      exact .forward 0 hready (by simp) (by simp) hready.working hjumps
        (by rw [hopened, hentries]) nofun fun henters => absurd hentries (Nat.ne_of_gt henters)
  | enter hready hmode htake =>
      exact .forward 0 hready rfl rfl hready.working rfl rfl nofun
        fun _ => ⟨rfl, hmode, congrArg Prod.fst htake⟩
  | pass hready => exact .forward 0 hready rfl rfl hready.working rfl rfl nofun nofun
  | back hready hmode hback =>
      obtain ⟨start, outer, hopened, rfl⟩ := Control.exists_of_back? hback
      exact .back hready hmode hopened rfl rfl hready.working rfl rfl
  | unmatched hready => exact .failure hready rfl rfl rfl rfl
  | leave hready =>
      have hopened : run.control.countStep.leave.opened.length +
          (run.control.opened.length - run.control.opened.tail.length) =
            run.control.opened.length := by
        have hle : run.control.opened.tail.length ≤ run.control.opened.length := by
          rw [List.length_tail]
          exact Nat.sub_le _ 1
        rw [Control.opened_leave]
        exact Nat.add_sub_cancel' hle
      exact .forward _ hready (by simp) (by simp) hready.working rfl hopened (fun _ => rfl) nofun
  | @plain instruction workspace hready hmode hplain hexecute =>
      have hentries := countP_isEnter_reports run.workspace workspace instruction
      exact .forward 0 hready rfl rfl hready.working
        (filterMap_backJump?_reports run.workspace workspace instruction)
        (congrArg (run.control.opened.length + ·) hentries.symm) nofun
        fun henters => absurd hentries (Nat.ne_of_gt henters)
  | @mishap instruction workspace mishap hready =>
      exact .failure hready rfl (mishap.unfinished_failureAt _) rfl rfl

/-! ## Whole runs -/

section FromStart

variable (program) (machine : Machine) (input : ι) (output : ο) (count : Nat)

/-- Every way back is from the end of a loop to its start. -/
theorem mem_pairs_of_mem_backJumps :
    ∀ jump ∈ (machine.start input output).backJumps program count,
      (jump.start, jump.close) ∈ program.loops.pairs := by
  induction count with
  | zero => exact List.forall_mem_nil _
  | succ count ih =>
      have hagrees := agrees_of_start program machine input output count
      have hmotion := ((machine.start input output).after program count).next_motion program
      rw [backJumps_succ]
      generalize ((machine.start input output).after program count).next program = next at hmotion
      cases hmotion with
      | forward _ _ _ _ _ hjumps | rest _ _ hjumps | failure _ _ _ hjumps =>
          rwa [hjumps, List.append_nil]
      | back hready hmode hopened _ _ _ hjumps =>
          rw [hjumps]
          refine List.forall_mem_append.mpr ⟨ih, List.forall_mem_singleton.mpr ?_⟩
          -- the innermost open loop is the one that the brackets have open
          have hstack := (hagrees.executes hmode).opened_eq
          rw [hopened] at hstack
          exact Program.mem_pairs_iff.mpr ⟨hready.get?_eq, by rw [← hstack, List.head?_cons]⟩

/-- **The account of the steps of a run**: those that have taken it to its position, those of the
ways that it has gone back, and the one that it may have failed in. -/
theorem steps_after_eq :
    ((machine.start input output).after program count).control.steps =
      ((machine.start input output).after program count).control.position +
        BackJump.totalCost ((machine.start input output).backJumps program count) +
        ((machine.start input output).after program count).status.unfinished := by
  induction count with
  | zero => rfl
  | succ count ih =>
      have hpairs := mem_pairs_of_mem_backJumps program machine input output (count + 1)
      have hmotion := ((machine.start input output).after program count).next_motion program
      rw [backJumps_succ] at hpairs ⊢
      rw [after_succ, BackJump.totalCost_append]
      generalize (machine.start input output).after program count = run at ih hmotion hpairs
      generalize run.next program = next at hmotion hpairs
      cases hmotion with
      | forward _ hready hposition hsteps hstatus hjumps =>
          have hbefore := unfinished_of_working hready.working
          have hafter := unfinished_of_working hstatus
          rw [hjumps, hposition, hsteps, hafter, BackJump.totalCost_nil]
          omega
      | @back start _ _ hready _ _ hposition hsteps hstatus hjumps =>
          have hbefore := unfinished_of_working hready.working
          have hafter := unfinished_of_working hstatus
          have hpair := hpairs ⟨run.control.position, start⟩ (by simp [hjumps])
          have hlt : start < run.control.position := Program.lt_of_mem_pairs hpair
          have hcost : BackJump.cost ⟨run.control.position, start⟩ =
              run.control.position - start + 1 := rfl
          rw [hjumps, hposition, hsteps, hafter, BackJump.totalCost_singleton, hcost]
          omega
      | rest hcontrol hstatus hjumps =>
          rw [hjumps, hcontrol, hstatus, BackJump.totalCost_nil]
          exact ih
      | failure hready hcontrol hstatus hjumps =>
          have hbefore := unfinished_of_working hready.working
          rw [hjumps, hcontrol, hstatus, BackJump.totalCost_nil, Control.position_countStep,
            Control.steps_countStep]
          omega

/-- A run that has failed at an instruction still stands at it. -/
theorem position_add_unfinished_le :
    ((machine.start input output).after program count).control.position +
      ((machine.start input output).after program count).status.unfinished ≤ program.size := by
  induction count with
  | zero => exact Nat.zero_le _
  | succ count ih =>
      have hposition := position_le_size program machine input output (count + 1)
      have hmotion := ((machine.start input output).after program count).next_motion program
      rw [after_succ] at hposition ⊢
      generalize (machine.start input output).after program count = run at ih hmotion hposition
      generalize run.next program = next at hmotion hposition
      cases hmotion with
      | forward _ _ _ _ hstatus | back _ _ _ _ _ hstatus =>
          rw [unfinished_of_working hstatus]
          exact hposition
      | rest hcontrol hstatus =>
          rw [hcontrol, hstatus]
          exact ih
      | failure hready hcontrol hstatus =>
          rw [hcontrol, hstatus]
          exact Program.lt_size_of_get? hready.get?_eq

theorem cost_le_size {jump : BackJump}
    (hmem : jump ∈ (machine.start input output).backJumps program count) :
    jump.cost ≤ program.size := by
  have hpair := mem_pairs_of_mem_backJumps program machine input output count jump hmem
  have hclose := Program.lt_size_of_get? (Program.mem_pairs_iff.mp hpair).1
  rw [BackJump.cost]
  omega

/-- Between two ways back, a run takes one step for each instruction at most. -/
theorem steps_after_le_of_backJumps :
    ((machine.start input output).after program count).control.steps ≤
      (((machine.start input output).backJumps program count).length + 1) * program.size := by
  have hcost := BackJump.totalCost_le fun _ => cost_le_size program machine input output count
  have hposition := position_add_unfinished_le program machine input output count
  rw [steps_after_eq, Nat.succ_mul]
  omega

/-- **The account of the loops entered**: a loop that has been entered is still open, or has been
left, or the run has gone back in it.  Only `!` leaves a loop. -/
theorem exists_entries_eq : ∃ left,
    (machine.start input output).entries program count =
      ((machine.start input output).after program count).control.opened.length +
        ((machine.start input output).backJumps program count).length + left ∧
      (0 < left → ∃ position, program.get? position = some .leave) := by
  induction count with
  | zero => exact ⟨0, rfl, nofun⟩
  | succ count ih =>
      obtain ⟨before, hbefore, hleaves⟩ := ih
      have hmotion := ((machine.start input output).after program count).next_motion program
      rw [after_succ, backJumps_succ, entries_succ, List.length_append]
      generalize (machine.start input output).after program count = run at hbefore hmotion ⊢
      generalize run.next program = next at hmotion ⊢
      cases hmotion with
      | forward left hready _ _ _ hjumps hopened hleft =>
          refine ⟨before + left, ?_, fun hpos => ?_⟩
          · rw [hjumps, List.length_nil]
            dsimp only
            omega
          · by_cases hnone : left = 0
            · exact hleaves (by omega)
            · exact ⟨_, hleft (Nat.pos_of_ne_zero hnone) ▸ hready.get?_eq⟩
      | back _ _ hopened _ _ _ hjumps hentries =>
          refine ⟨before, ?_, hleaves⟩
          rw [hopened, List.length_cons] at hbefore
          rw [hjumps, hentries, List.length_singleton]
          dsimp only
          omega
      | rest hcontrol _ hjumps hentries | failure _ hcontrol _ hjumps hentries =>
          refine ⟨before, ?_, hleaves⟩
          rw [hjumps, hentries, hcontrol]
          exact hbefore

/-- A loop is gone back to, or still open, only as often as loops have been entered. -/
theorem length_opened_add_backJumps_le :
    ((machine.start input output).after program count).control.opened.length +
      ((machine.start input output).backJumps program count).length ≤
        (machine.start input output).entries program count := by
  obtain ⟨left, hentries, -⟩ := exists_entries_eq program machine input output count
  rw [hentries]
  exact Nat.le_add_right _ _

/-- In a program without `!`, a loop that has been entered is open or has been gone back to. -/
theorem entries_eq (hleave : ∀ position, program.get? position ≠ some .leave) :
    (machine.start input output).entries program count =
      ((machine.start input output).after program count).control.opened.length +
        ((machine.start input output).backJumps program count).length := by
  obtain ⟨left, hentries, hleaves⟩ := exists_entries_eq program machine input output count
  have hnone : ¬0 < left := fun hpos =>
    have ⟨position, hget⟩ := hleaves hpos
    hleave position hget
  omega

end FromStart

/-- The transition after which more loops have been entered is one that enters a loop. -/
theorem entersLoop_of_entries_lt {run : Run ι ο} {count : Nat}
    (hlt : run.entries program count < run.entries program (count + 1)) :
    run.EntersLoop program count := by
  have hmotion := (run.after program count).next_motion program
  rw [entries_succ] at hlt
  generalize (run.after program count).next program = next at hmotion hlt
  cases hmotion with
  | forward _ hready _ _ _ _ _ _ henters =>
      obtain ⟨rfl, hmode, hcondition⟩ := henters (Nat.pos_of_lt_add_right hlt)
      exact ⟨_, ⟨hready, hmode, rfl⟩, hcondition⟩
  | back _ _ _ _ _ _ _ hentries | rest _ _ _ hentries | failure _ _ _ _ hentries =>
      rw [hentries] at hlt
      exact absurd hlt (Nat.lt_irrefl _)

theorem exists_entersLoop {run : Run ι ο} {count further : Nat}
    (hlt : run.entries program count < run.entries program (count + further)) :
    ∃ later ≥ count, run.EntersLoop program later := by
  induction further with
  | zero => exact absurd hlt (Nat.lt_irrefl _)
  | succ further ih =>
      by_cases hbefore : run.entries program count < run.entries program (count + further)
      · exact ih hbefore
      · have hle := Nat.le_of_not_lt hbefore
        exact ⟨count + further, Nat.le_add_right _ _,
          entersLoop_of_entries_lt (Nat.lt_of_le_of_lt hle hlt)⟩

section FromStart

variable (program) (machine : Machine) (input : ι) (output : ο)

/-- A program in which no `?` is matched lets no run go back. -/
theorem backJumps_eq_nil
    (hunmatched : ∀ start, program.get? start = some .loopOpen →
      program.loops.partner? start = none) (count : Nat) :
    (machine.start input output).backJumps program count = [] := by
  rw [List.eq_nil_iff_forall_not_mem]
  intro jump hmem
  have hpair := mem_pairs_of_mem_backJumps program machine input output count jump hmem
  have hopen := Program.get?_start_of_mem_pairs hpair
  have hnone := hunmatched jump.start hopen
  rw [(Program.partner?_eq_some_iff_of_open hopen).mpr hpair] at hnone
  cases hnone

/-- A run that goes back only a bounded number of times comes to its end. -/
theorem exists_ends_of_backJumps_le {bound : Nat}
    (hbound : ∀ count, ((machine.start input output).backJumps program count).length ≤ bound) :
    ∃ last, (machine.start input output).Ends program last ∧
      last.control.steps ≤ (bound + 1) * program.size := by
  have hsteps : ∀ count, ((machine.start input output).after program count).control.steps ≤
      (bound + 1) * program.size := by
    intro count
    have hle := steps_after_le_of_backJumps program machine input output count
    exact hle.trans (Nat.mul_le_mul_right _ (Nat.succ_le_succ (hbound count)))
  refine ⟨_, ends_of_after ?_, hsteps ((bound + 1) * program.size + 1)⟩
  intro hworking
  -- a run that is still working has taken a step in every transition
  have htaken := steps_after_of_working hworking
  have hle := hsteps ((bound + 1) * program.size + 1)
  rw [htaken, Machine.start, Nat.zero_add] at hle
  exact Nat.not_succ_le_self _ hle

/-- A run without end enters a loop again and again. -/
theorem exists_entersLoop_of_endless
    (hendless : ∀ count, ((machine.start input output).after program count).status = .working)
    (count : Nat) : ∃ later ≥ count, (machine.start input output).EntersLoop program later := by
  by_contra hnever
  -- then the loops entered so far bound the ways back, and the run would come to its end
  have hbound : ∀ other, ((machine.start input output).backJumps program other).length ≤
      (machine.start input output).entries program count := by
    intro other
    have hopened := length_opened_add_backJumps_le program machine input output other
    have hmore := (machine.start input output).entries_le_add program other count
    have hnone : (machine.start input output).entries program (count + other) ≤
        (machine.start input output).entries program count :=
      Nat.le_of_not_lt fun hlt => hnever (exists_entersLoop hlt)
    rw [Nat.add_comm other] at hmore
    omega
  obtain ⟨last, ⟨hended, further, rfl⟩, -⟩ :=
    exists_ends_of_backJumps_le program machine input output hbound
  exact hended (hendless further)

end FromStart

/-- **Only ways back make a run long.**  In every state that a run reaches, its steps are its
position, the ways that it has gone back, each from the `\` of a loop to its earlier `?`, and the
step of a failure at an instruction.  So with `k` ways back it takes at most `k + 1` steps for each
instruction of the program.  A program in which no `?` is matched is run to an end with one step for
each instruction at most, and a run that does not end enters a loop again and again. -/
theorem only_backJumps_prolong (program : Program) (machine : Machine) (input : ι) (output : ο) :
    let run := machine.start input output
    (∀ count, (run.after program count).control.steps =
      (run.after program count).control.position +
        ((run.backJumps program count).map fun jump => jump.close - jump.start + 1).sum +
        (run.after program count).status.unfinished) ∧
    (∀ count, ∀ jump ∈ run.backJumps program count,
      jump.start < jump.close ∧ program.get? jump.close = some .loopClose ∧
        program.get? jump.start = some .loopOpen ∧
        program.loops.partner? jump.close = some jump.start) ∧
    (∀ count, (run.after program count).control.steps ≤
      ((run.backJumps program count).length + 1) * program.size) ∧
    ((∀ start, program.get? start = some .loopOpen → program.loops.partner? start = none) →
      ∃ last, run.Ends program last ∧ last.control.steps ≤ program.size) ∧
    ((∀ count, (run.after program count).status = .working) →
      ∀ count, ∃ later ≥ count, run.EntersLoop program later) := by
  intro run
  refine ⟨steps_after_eq program machine input output, ?_,
    steps_after_le_of_backJumps program machine input output, ?_,
    exists_entersLoop_of_endless program machine input output⟩
  · intro count jump hmem
    have hpair := mem_pairs_of_mem_backJumps program machine input output count jump hmem
    exact ⟨Program.lt_of_mem_pairs hpair, (Program.mem_pairs_iff.mp hpair).1,
      Program.get?_start_of_mem_pairs hpair, Program.partner?_eq_some_iff.mpr (Or.inr hpair)⟩
  · intro hunmatched
    have hnone : ∀ count, (run.backJumps program count).length ≤ 0 := by
      intro count
      rw [backJumps_eq_nil program machine input output hunmatched, List.length_nil]
    obtain ⟨last, hends, hsteps⟩ := exists_ends_of_backJumps_le program machine input output hnone
    rw [Nat.zero_add, Nat.one_mul] at hsteps
    exact ⟨last, hends, hsteps⟩

end Run

end LetterMachine
