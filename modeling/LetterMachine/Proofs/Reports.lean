import LetterMachine.Proofs.CleanFailures
import LetterMachine.Proofs.Frame
import LetterMachine.Proofs.StepLimit

/-!
# What the events of a run tell

Someone who sees only the events of a run can say what the run has done.  The reports of registers
are replayed over the bank that the run starts with, and give the bank that it has reached; nothing
changes that is not reported, unless the source or the sink fails.  The instructions, executed or
passed over, are announced one for each step, in the order of the run, and those that are executed
with the register that is active.  A transition announces one instruction and remarks on it, or it
comes to the end of the program, or it says nothing; `Run.Reported` tells these apart.
-/

namespace LetterMachine

namespace Bank

/-- The bank after an event, as far as the event says. -/
def record (bank : Bank) : Event → Bank
  | .register letter contents => bank.set letter contents
  | _ => bank

/-- The bank after some events, each of which replaces one register at most. -/
def replay (bank : Bank) (events : List Event) : Bank :=
  events.foldl record bank

theorem replay_append (bank : Bank) (first second : List Event) :
    bank.replay (first ++ second) = (bank.replay first).replay second :=
  List.foldl_append

end Bank

/-! ## Reports of registers -/

namespace Workspace

variable {ι ο : Type} {workspace after : Workspace ι ο}

theorem transfer_of_isEmpty {target : Letter} (hempty : workspace.contents.isEmpty) :
    workspace.transfer target = workspace := by
  obtain ⟨values, hvalues⟩ := Deque.exists_eq_ofList workspace.contents
  rw [hvalues, Deque.isEmpty_ofList, List.isEmpty_iff] at hempty
  subst hempty
  have hpop : (workspace.bank.get workspace.active).popFront? = none :=
    (congrArg Deque.popFront? hvalues).trans Deque.popFront?_ofList_nil
  simp only [transfer, Bank.transfer?, hpop, Option.map_none]

theorem replay_takeCondition :
    workspace.bank.record (workspace.takeCondition.2.report workspace.takeCondition.2.active) =
      workspace.takeCondition.2.bank := by
  rw [active_takeCondition]
  exact Bank.set_get_of_eq fun _ => get_takeCondition

variable [Source ι] [Sink ο]

/-- A transfer changes two registers, and reports the active one last. -/
theorem replay_reports_transfer (target : Letter) :
    workspace.bank.replay (workspace.reports (workspace.transfer target) (.transfer target)) =
      (workspace.transfer target).bank := by
  have hactive : (workspace.transfer target).active = workspace.active :=
    workspace.active_execute (.transfer target)
  by_cases hempty : workspace.contents.isEmpty
  · rw [transfer_of_isEmpty hempty, reports, if_pos hempty]
    exact Bank.set_get_self workspace.bank workspace.active
  · rw [reports, if_neg hempty]
    apply Bank.set_get_of_eq
    intro other hother
    rw [hactive] at hother
    by_cases htarget : other = target
    · subst htarget
      exact (Bank.get_set_self ..).symm
    · exact (get_transfer hother htarget).trans (Bank.get_set_of_ne _ (Ne.symm htarget) _).symm

/-- The reports of an instruction tell all that it does to the registers. -/
theorem replay_reports {instruction : Instruction}
    (hexecute : workspace.execute instruction = (after, none)) :
    workspace.bank.replay (workspace.reports after instruction) = after.bank := by
  obtain rfl : (workspace.execute instruction).1 = after := congrArg Prod.fst hexecute
  have hactive := workspace.active_execute instruction
  cases instruction with
  | nop => rfl
  | transfer target => exact replay_reports_transfer target
  | select letter => exact Bank.set_get_self workspace.bank letter
  | _ =>
      apply Bank.set_get_of_eq
      intro other hother
      rw [hactive] at hother
      exact get_execute hother nofun

end Workspace

/-! ## What one transition reports -/

/-- A step as its event tells it. -/
structure Visit where
  mode : Mode
  position : Nat
  instruction? : Option Instruction
  deriving DecidableEq

namespace Event

/-- The step that an event announces. -/
def visit? : Event → Option Visit
  | .instruction position executed _ => some ⟨.running, position, some executed⟩
  | .skip position passed _ => some ⟨.skipping, position, some passed⟩
  | _ => none

def isHalt : Event → Bool
  | .halt _ => true
  | _ => false

/-- An event that says more about the step announced before it. -/
def isRemark : Event → Bool
  | .instruction .. | .skip .. | .halt _ => false
  | _ => true

end Event

/-- The active register after an event, as far as the event says. -/
def Letter.follow (active : Letter) : Event → Letter
  | .instruction _ instruction _ => instruction.selected?.getD active
  | _ => active

section Remarks

variable {remarks : List Event} (hremarks : ∀ event ∈ remarks, event.isRemark)

include hremarks

theorem filterMap_visit?_of_remarks : remarks.filterMap Event.visit? = [] := by
  rw [List.filterMap_eq_nil_iff]
  intro event hevent
  have hremark := hremarks event hevent
  cases event with
  | instruction | skip => cases hremark
  | _ => rfl

theorem filter_isHalt_of_remarks : remarks.filter Event.isHalt = [] := by
  rw [List.filter_eq_nil_iff]
  intro event hevent hhalt
  have hremark := hremarks event hevent
  cases event with
  | halt => cases hremark
  | _ => cases hhalt

theorem foldl_follow_of_remarks (active : Letter) :
    remarks.foldl Letter.follow active = active := by
  induction remarks with
  | nil => rfl
  | cons event remarks ih =>
      have hevent := hremarks event List.mem_cons_self
      have hfollow : Letter.follow active event = active := by
        cases event with
        | instruction => cases hevent
        | _ => rfl
      rw [List.foldl_cons, hfollow]
      exact ih fun later hlater => hremarks later (List.mem_cons_of_mem _ hlater)

end Remarks

namespace Run

variable {ι ο : Type}

/-- The step that a run is about to take. -/
def visit (program : Program) (run : Run ι ο) : Visit where
  mode := run.control.mode
  position := run.control.position
  instruction? := program.get? run.control.position

/-- The event that announces a step. -/
def notice (run : Run ι ο) (instruction : Instruction) : Event :=
  match run.control.mode with
  | .running => run.announce instruction
  | .skipping => .skip run.control.position instruction run.control.depth

variable {program : Program}

theorem Ready.status_ne_halted {run : Run ι ο} {instruction : Instruction}
    (hready : run.Ready program instruction) : run.status ≠ .halted := by
  rw [hready.working]
  nofun

theorem visit?_notice {run : Run ι ο} {instruction : Instruction}
    (hready : run.Ready program instruction) :
    (run.notice instruction).visit? = some (run.visit program) := by
  rw [visit, hready.get?_eq, notice]
  cases run.control.mode <;> rfl

theorem isHalt_notice (run : Run ι ο) (instruction : Instruction) :
    (run.notice instruction).isHalt = false := by
  unfold notice
  split <;> rfl

theorem eq_active_of_notice {run : Run ι ο} {instruction announced : Instruction} {position : Nat}
    {letter : Letter} (hnotice : run.notice instruction = .instruction position announced letter) :
    letter = run.workspace.active := by
  unfold notice at hnotice
  split at hnotice <;> cases hnotice
  rfl

theorem isRemark_of_mem_reports {before after : Workspace ι ο} {instruction : Instruction} :
    ∀ event ∈ before.reports after instruction, event.isRemark := by
  cases instruction with
  | nop => simp [Workspace.reports]
  | transfer target =>
      simp only [Workspace.reports]
      split <;> simp [Workspace.report, Event.isRemark]
  | _ => simp [Workspace.reports, Workspace.report, Event.isRemark]

/-- A run that has taken a transition, together with what it reports. -/
inductive Reported (program : Program) (run : Run ι ο) : Run ι ο × List Event → Prop where
  | step {instruction : Instruction} {after : Run ι ο} {remarks : List Event}
      (hready : run.Ready program instruction)
      (hactive : after.workspace.active =
        run.workspace.active.follow (run.notice instruction))
      (hcounted : after.control.steps = run.control.steps + 1)
      (hstatus : after.status ≠ .halted) (hremarks : ∀ event ∈ remarks, event.isRemark) :
      Reported program run (after, run.notice instruction :: remarks)
  | halt (hworking : run.status = .working) :
      Reported program run ({ run with status := .halted }, [.halt run.control.steps])
  | silent {status : Status} (hstatus : status = .halted ↔ run.status = .halted) :
      Reported program run ({ run with status := status }, [])

theorem reported_of_announced {run after : Run ι ο} {instruction : Instruction}
    {remarks : List Event} (hready : run.Ready program instruction)
    (hmode : run.control.mode = .running)
    (hactive : after.workspace.active = instruction.selected?.getD run.workspace.active)
    (hcounted : after.control.steps = run.control.steps + 1)
    (hstatus : after.status ≠ .halted) (hremarks : ∀ event ∈ remarks, event.isRemark) :
    run.Reported program (after, run.announce instruction :: remarks) := by
  have hnotice : run.notice instruction = run.announce instruction := by
    rw [notice, hmode]
  rw [← hnotice]
  refine .step hready ?_ hcounted hstatus hremarks
  rw [hnotice]
  exact hactive

theorem reported_of_passed {run after : Run ι ο} {instruction : Instruction}
    (hready : run.Ready program instruction) (hmode : run.control.mode = .skipping)
    (hactive : after.workspace.active = run.workspace.active)
    (hcounted : after.control.steps = run.control.steps + 1) (hstatus : after.status ≠ .halted) :
    run.Reported program (after, run.control.skipEvents instruction) := by
  have hnotice : run.notice instruction =
      .skip run.control.position instruction run.control.depth := by
    rw [notice, hmode]
  have hfollow : after.workspace.active =
      run.workspace.active.follow (run.notice instruction) := by
    rw [hnotice]
    exact hactive
  unfold Control.skipEvents
  split
  · rw [← hnotice]
    exact .step hready hfollow hcounted hstatus (by simp [Event.isRemark])
  · rw [← hnotice]
    exact .step hready hfollow hcounted hstatus nofun

variable [Source ι] [Sink ο]

/-- What a run does next is reported in one of these ways. -/
theorem next_reported (program : Program) (run : Run ι ο) :
    run.Reported program (run.next program) := by
  have htransition := run.next_transition program
  have hcounted : ∀ instruction, run.Ready program instruction →
      (run.next program).1.control.steps = run.control.steps + 1 :=
    fun _ => steps_next_of_ready
  generalize run.next program = next at htransition hcounted
  cases htransition with
  | ended => exact .silent Iff.rfl
  | halt hworking => exact .halt hworking
  | exhausted hworking =>
      apply Reported.silent
      rw [hworking]
      simp
  | skip hready hmode =>
      exact reported_of_passed hready hmode rfl (hcounted _ hready) hready.status_ne_halted
  | enter hready hmode htake | pass hready hmode htake =>
      obtain rfl := congrArg Prod.snd htake
      have hactive := run.workspace.active_takeCondition
      exact reported_of_announced hready hmode hactive (hcounted _ hready) hready.status_ne_halted
        (by simp [Workspace.report, Event.isRemark])
  | back hready hmode | leave hready hmode =>
      exact reported_of_announced hready hmode rfl (hcounted _ hready) hready.status_ne_halted
        (by simp [Event.isRemark])
  | unmatched hready hmode =>
      exact reported_of_announced hready hmode rfl (hcounted _ hready) nofun nofun
  | plain hready hmode _ hexecute =>
      obtain rfl := congrArg Prod.fst hexecute
      have hactive := run.workspace.active_execute
      exact reported_of_announced hready hmode (hactive _) (hcounted _ hready)
        hready.status_ne_halted isRemark_of_mem_reports
  | mishap hready hmode _ hexecute =>
      obtain rfl := congrArg Prod.fst hexecute
      have hactive := run.workspace.active_execute
      exact reported_of_announced hready hmode (hactive _) (hcounted _ hready) nofun nofun

/-- Unless the source or the sink fails, the reports of registers tell all that a transition does to
them. -/
theorem replay_next (program : Program) {run : Run ι ο}
    (hclean : ∀ fault, (run.next program).1.status ≠ .failed (.io fault)) :
    run.workspace.bank.replay (run.next program).2 = (run.next program).1.workspace.bank := by
  have htransition := run.next_transition program
  generalize run.next program = next at hclean htransition
  cases htransition with
  | ended | halt | exhausted | back | unmatched | leave => rfl
  | skip =>
      unfold Control.skipEvents
      split <;> rfl
  | enter _ _ htake | pass _ _ htake =>
      obtain rfl := congrArg Prod.snd htake
      exact Workspace.replay_takeCondition
  | plain _ _ _ hexecute => exact Workspace.replay_reports hexecute
  | @mishap _ _ mishap _ _ _ hexecute =>
      cases mishap with
      | io fault => exact absurd rfl (hclean fault)
      | remainderByZero =>
          exact congrArg Workspace.bank (Workspace.eq_of_execute_fails hexecute).symm

/-! ## What a run reports -/

theorem replay_events (program : Program) {run : Run ι ο} {count : Nat}
    (hclean : ∀ fault, (run.after program count).status ≠ .failed (.io fault)) :
    run.workspace.bank.replay (run.events program count) =
      (run.after program count).workspace.bank := by
  induction count with
  | zero => rfl
  | succ count ih =>
      rw [after_succ] at hclean
      -- A run that has failed before has failed now.
      have hbefore : ∀ fault, (run.after program count).status ≠ .failed (.io fault) := by
        intro fault hfailed
        rw [next_of_ended (by rw [hfailed]; nofun)] at hclean
        exact hclean fault hfailed
      rw [events_succ, Bank.replay_append, ih hbefore, after_succ, replay_next program hclean]

/-- The events follow the choice of the active register. -/
theorem follow_events (program : Program) (run : Run ι ο) (count : Nat) :
    (run.events program count).foldl Letter.follow run.workspace.active =
      (run.after program count).workspace.active := by
  induction count with
  | zero => rfl
  | succ count ih =>
      have hreported := (run.after program count).next_reported program
      rw [events_succ, List.foldl_append, ih, after_succ]
      generalize (run.after program count).next program = next at hreported
      cases hreported with
      | step _ hactive _ _ hremarks =>
          rw [List.foldl_cons, foldl_follow_of_remarks hremarks]
          exact hactive.symm
      | halt | silent => rfl

/-- One instruction is announced in a transition at most, before anything else. -/
theorem announced_next {run : Run ι ο} {before later : List Event} {position : Nat}
    {instruction : Instruction} {letter : Letter}
    (hnext : (run.next program).2 = before ++ .instruction position instruction letter :: later) :
    before = [] ∧ letter = run.workspace.active := by
  have hreported := run.next_reported program
  generalize run.next program = next at hreported hnext
  cases hreported with
  | step _ _ _ _ hremarks =>
      cases before with
      | nil => exact ⟨rfl, eq_active_of_notice (List.cons.inj hnext).1⟩
      | cons first before =>
          obtain ⟨-, rfl⟩ := List.cons.inj hnext
          cases hremarks _ (List.mem_append_right before List.mem_cons_self)
  | halt =>
      cases before with
      | nil => cases hnext
      | cons first before => cases before <;> cases hnext
  | silent => cases before <;> cases hnext

/-- An instruction is announced with the register that the events before it have chosen. -/
theorem announced_events {run : Run ι ο} {count : Nat} {before later : List Event}
    {position : Nat} {instruction : Instruction} {letter : Letter}
    (hevents : run.events program count =
      before ++ .instruction position instruction letter :: later) :
    letter = before.foldl Letter.follow run.workspace.active := by
  induction count generalizing later with
  | zero => cases before <;> cases hevents
  | succ count ih =>
      rw [events_succ, List.append_eq_append_iff] at hevents
      obtain ⟨between, rfl, hnext⟩ | ⟨between, hearlier, hnext⟩ := hevents
      · obtain ⟨rfl, rfl⟩ := announced_next hnext
        rw [List.append_nil, follow_events]
      · cases between with
        | nil =>
            have hfirst : _ = [] ++ _ := hnext.symm
            obtain ⟨-, rfl⟩ := announced_next hfirst
            rw [List.append_nil] at hearlier
            rw [← hearlier, follow_events]
        | cons first between =>
            obtain ⟨rfl, -⟩ := List.cons.inj hnext
            exact ih hearlier

/-- The steps are announced one by one, in the order in which they are taken. -/
theorem visits_events {run : Run ι ο} (hsteps : run.control.steps = 0) (count : Nat) :
    (run.events program count).filterMap Event.visit? =
      (List.range (run.after program count).control.steps).map fun earlier =>
        (run.after program earlier).visit program := by
  induction count with
  | zero =>
      rw [after_zero, hsteps]
      rfl
  | succ count ih =>
      have hreported := (run.after program count).next_reported program
      rw [events_succ, List.filterMap_append, ih, after_succ]
      generalize (run.after program count).next program = next at hreported
      cases hreported with
      | step hready _ hcounted _ hremarks =>
          have hcount : (run.after program count).control.steps = count := by
            rw [steps_after_of_working hready.working, hsteps, Nat.zero_add]
          rw [List.filterMap_cons_some (visit?_notice hready), filterMap_visit?_of_remarks hremarks,
            hcounted, hcount, List.range_succ, List.map_append]
          rfl
      | halt | silent => exact List.append_nil _

theorem halts_events {run : Run ι ο} (hworking : run.status = .working) (count : Nat) :
    (run.events program count).filter Event.isHalt =
      if (run.after program count).status = .halted then
        [.halt (run.after program count).control.steps]
      else [] := by
  induction count with
  | zero =>
      rw [after_zero, hworking]
      rfl
  | succ count ih =>
      have hreported := (run.after program count).next_reported program
      rw [events_succ, List.filter_append, ih, after_succ]
      generalize (run.after program count).next program = next at hreported
      cases hreported with
      | step hready _ _ hstatus hremarks =>
          rw [if_neg hready.status_ne_halted, if_neg hstatus, List.filter_cons, isHalt_notice,
            filter_isHalt_of_remarks hremarks]
          rfl
      | halt hworking =>
          rw [hworking]
          rfl
      | silent hstatus =>
          simp only [hstatus]
          exact List.append_nil _

/-- A run that comes to the end of its program says so last of all. -/
theorem getLast?_events {run : Run ι ο} (hworking : run.status = .working) {count : Nat}
    (hhalted : (run.after program count).status = .halted) :
    (run.events program count).getLast? =
      some (.halt (run.after program count).control.steps) := by
  induction count with
  | zero =>
      rw [after_zero, hworking] at hhalted
      cases hhalted
  | succ count ih =>
      have hreported := (run.after program count).next_reported program
      rw [events_succ]
      rw [after_succ] at hhalted ⊢
      generalize (run.after program count).next program = next at hreported hhalted
      cases hreported with
      | step _ _ _ hstatus => exact absurd hhalted hstatus
      | halt => exact List.getLast?_concat
      | silent hstatus =>
          rw [List.append_nil]
          exact ih (hstatus.mp hhalted)

/-- What the events of a run tell of it, however far it is followed. -/
structure Tells (program : Program) (run : Run ι ο) (count : Nat) : Prop where
  /-- The reports of registers give the bank, unless the source or the sink has failed. -/
  bank : (∀ fault, (run.after program count).status ≠ .failed (.io fault)) →
    run.workspace.bank.replay (run.events program count) =
      (run.after program count).workspace.bank
  /-- Every step is announced once, with its mode, its position and its instruction. -/
  visits : (run.events program count).filterMap Event.visit? =
    (List.range (run.after program count).control.steps).map fun earlier =>
      (run.after program earlier).visit program
  length_visits : ((run.events program count).filterMap Event.visit?).length =
    (run.after program count).control.steps
  /-- An instruction is executed on the register that was selected last. -/
  active : ∀ before position instruction letter later,
    run.events program count = before ++ .instruction position instruction letter :: later →
    letter = before.foldl Letter.follow run.workspace.active
  /-- The end of the program is reported if the run comes to it, and then once. -/
  halts : (run.events program count).filter Event.isHalt =
    if (run.after program count).status = .halted then
      [.halt (run.after program count).control.steps]
    else []
  /-- Nothing is reported after the end of the program. -/
  last : (run.after program count).status = .halted →
    (run.events program count).getLast? = some (.halt (run.after program count).control.steps)

/-- **The events of a run tell what it has done.** -/
theorem events_tell (program : Program) (machine : Machine) (input : ι) (output : ο) (count : Nat) :
    Tells program (machine.start input output) count where
  bank := replay_events program
  visits := visits_events rfl count
  length_visits := by rw [visits_events rfl, List.length_map, List.length_range]
  active _ _ _ _ _ := announced_events
  halts := halts_events rfl count
  last := getLast?_events rfl

-- The operand of a printing that fails is gone, and no event says so.
example :
    let program := Program.ofChars ['5', '@']
    let run : Run ByteStream OutputBuffer := Machine.start {} ⟨[], false⟩ ⟨some 0, []⟩
    run.workspace.bank.replay (run.events program 2) ≠ (run.after program 2).workspace.bank := by
  decide

end Run

end LetterMachine
