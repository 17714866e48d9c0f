import LetterMachine.Machine.Run

/-!
# Transitions of a run

A run is carried on one transition at a time.  `Run.Transition` lists everything that a single one
can do, with the conditions under which it does it, so that a property of runs is proved by one case
for each kind of transition.  The second part counts transitions: `Run.after` is the run reached,
`Run.events` is what it reports on the way, and both agree with `Run.follow`.
-/

namespace LetterMachine.Run

variable {ι ο : Type} [Source ι] [Sink ο]

/-- An instruction is plain if it has nothing to do with loops. -/
def IsPlain (instruction : Instruction) : Prop :=
  instruction.isLoopBracket = false ∧ instruction ≠ .leave

/-- A working run that stands before an instruction and has a step left for it. -/
structure Ready (program : Program) (run : Run ι ο) (instruction : Instruction) : Prop where
  working : run.status = .working
  get?_eq : program.get? run.control.position = some instruction
  exhausted?_eq : run.exhausted? = none

/-- The report of an instruction that is about to be executed. -/
def announce (run : Run ι ο) (instruction : Instruction) : Event :=
  .instruction run.control.position instruction run.workspace.active

/-- What a run can do next, together with what it reports. -/
inductive Transition (program : Program) (run : Run ι ο) : Run ι ο × List Event → Prop where
  | ended (hended : run.status ≠ .working) : Transition program run (run, [])
  | halt (hworking : run.status = .working)
      (hget : program.get? run.control.position = none) :
      Transition program run ({ run with status := .halted }, [.halt run.control.steps])
  | exhausted {instruction : Instruction} {limit : Nat} (hworking : run.status = .working)
      (hget : program.get? run.control.position = some instruction)
      (hlimit : run.exhausted? = some limit) :
      Transition program run (run.fail (.stepsExhausted limit), [])
  | skip {instruction : Instruction} (hready : run.Ready program instruction)
      (hmode : run.control.mode = .skipping) :
      Transition program run
        ({ run with control := run.control.countStep.skip instruction },
          run.control.skipEvents instruction)
  | enter {workspace : Workspace ι ο} (hready : run.Ready program .loopOpen)
      (hmode : run.control.mode = .running)
      (htake : run.workspace.takeCondition = (true, workspace)) :
      Transition program run
        ({ run with workspace := workspace, control := run.control.countStep.enter },
          [run.announce .loopOpen, workspace.report workspace.active,
            .enter run.control.position (run.control.depth + 1)])
  | pass {workspace : Workspace ι ο} (hready : run.Ready program .loopOpen)
      (hmode : run.control.mode = .running)
      (htake : run.workspace.takeCondition = (false, workspace)) :
      Transition program run
        ({ run with workspace := workspace, control := run.control.countStep.pass },
          [run.announce .loopOpen, workspace.report workspace.active,
            .pass run.control.position])
  | back {control : Control} (hready : run.Ready program .loopClose)
      (hmode : run.control.mode = .running)
      (hback : run.control.countStep.back? = some control) :
      Transition program run
        ({ run with control := control },
          [run.announce .loopClose, .back run.control.position control.position])
  | unmatched (hready : run.Ready program .loopClose)
      (hmode : run.control.mode = .running) (hopened : run.control.opened = []) :
      Transition program run
        ({ run with
            control := run.control.countStep
            status := .failed (.unmatchedLoopClose run.control.position) },
          [run.announce .loopClose])
  | leave (hready : run.Ready program .leave) (hmode : run.control.mode = .running) :
      Transition program run
        ({ run with control := run.control.countStep.leave },
          [run.announce .leave, .leave run.control.position])
  | plain {instruction : Instruction} {workspace : Workspace ι ο}
      (hready : run.Ready program instruction) (hmode : run.control.mode = .running)
      (hplain : IsPlain instruction)
      (hexecute : run.workspace.execute instruction = (workspace, none)) :
      Transition program run
        ({ run with workspace := workspace, control := run.control.countStep.advance },
          run.announce instruction :: run.workspace.reports workspace instruction)
  | mishap {instruction : Instruction} {workspace : Workspace ι ο} {mishap : Mishap}
      (hready : run.Ready program instruction) (hmode : run.control.mode = .running)
      (hplain : IsPlain instruction)
      (hexecute : run.workspace.execute instruction = (workspace, some mishap)) :
      Transition program run
        ({ run with
            workspace := workspace
            control := run.control.countStep
            status := .failed (mishap.failureAt run.control.position) },
          [run.announce instruction])

variable {program : Program}

omit [Source ι] [Sink ο] in
theorem exhausted?_eq_none_iff {run : Run ι ο} :
    run.exhausted? = none ↔ ∀ limit ∈ run.limit, run.control.steps < limit := by
  cases hlimit : run.limit with
  | none => simp [exhausted?, hlimit]
  | some limit => simp [exhausted?, hlimit, Option.filter_eq_none_iff]

theorem next_of_ended {run : Run ι ο} (hended : run.status ≠ .working) :
    run.next program = (run, []) := by
  simp [next, isWorking, hended]

theorem next_of_end {run : Run ι ο} (hworking : run.status = .working)
    (hget : program.get? run.control.position = none) :
    (run.next program).1 = { run with status := .halted } := by
  simp only [next, isWorking, hworking, hget]
  rfl

theorem next_of_exhausted {run : Run ι ο} {instruction : Instruction} {limit : Nat}
    (hworking : run.status = .working)
    (hget : program.get? run.control.position = some instruction)
    (hlimit : run.exhausted? = some limit) :
    (run.next program).1 = run.fail (.stepsExhausted limit) := by
  simp only [next, isWorking, hworking, hget, hlimit]
  rfl

theorem next_of_ready {run : Run ι ο} {instruction : Instruction}
    (hready : run.Ready program instruction) : run.next program = run.step instruction := by
  simp [next, isWorking, hready.working, hready.get?_eq, hready.exhausted?_eq]

theorem execute_of_isPlain {instruction : Instruction} (hplain : IsPlain instruction)
    (run : Run ι ο) : run.execute instruction = run.executePlain instruction := by
  obtain ⟨hbracket, hleave⟩ := hplain
  cases instruction <;> first | rfl | exact absurd rfl hleave | cases hbracket

section Execution

variable {run : Run ι ο} {instruction : Instruction} {workspace : Workspace ι ο}
  (hready : run.Ready program instruction) (hmode : run.control.mode = .running)
  (hplain : IsPlain instruction)

include hready hmode hplain

/-- A run goes on after an instruction that has not failed. -/
theorem next_of_execute_ok (hexecute : run.workspace.execute instruction = (workspace, none)) :
    (run.next program).1 =
      { run with workspace := workspace, control := run.control.countStep.advance } := by
  simp only [next_of_ready hready, step, hmode, execute_of_isPlain hplain, executePlain, hexecute]

/-- A run stops at an instruction that has failed. -/
theorem next_of_execute_error {mishap : Mishap}
    (hexecute : run.workspace.execute instruction = (workspace, some mishap)) :
    (run.next program).1 =
      { run with
        workspace := workspace
        control := run.control.countStep
        status := .failed (mishap.failureAt run.control.position) } := by
  simp only [next_of_ready hready, step, hmode, execute_of_isPlain hplain, executePlain, hexecute]
  rfl

end Execution

/-- One step of a run that executes instructions. -/
theorem step_transition {run : Run ι ο} {instruction : Instruction}
    (hready : run.Ready program instruction) (hmode : run.control.mode = .running) :
    Transition program run (run.step instruction) := by
  by_cases hplain : IsPlain instruction
  · simp only [step, hmode, execute_of_isPlain hplain, executePlain]
    rcases hexecute : run.workspace.execute instruction with ⟨workspace, mishap?⟩
    cases mishap? with
    | none => exact .plain hready hmode hplain hexecute
    | some mishap => exact .mishap hready hmode hplain hexecute
  · cases instruction with
    | loopOpen =>
        rcases htake : run.workspace.takeCondition with ⟨condition, workspace⟩
        simp only [step, hmode, execute, openLoop, htake]
        cases condition with
        | true => exact .enter hready hmode htake
        | false => exact .pass hready hmode htake
    | loopClose =>
        simp only [step, hmode, execute, closeLoop]
        cases hback : run.control.countStep.back? with
        | some control => exact .back hready hmode hback
        | none =>
            have hopened : run.control.opened = [] := by
              unfold Control.back? at hback
              split at hback
              · assumption
              · cases hback
            exact .unmatched hready hmode hopened
    | leave =>
        simp only [step, hmode, execute]
        exact .leave hready hmode
    | _ => exact absurd ⟨rfl, by simp⟩ hplain

/-- What a run does next is one of the transitions. -/
theorem next_transition (program : Program) (run : Run ι ο) :
    Transition program run (run.next program) := by
  by_cases hworking : run.status = .working
  · cases hget : program.get? run.control.position with
    | none =>
        simp only [next, isWorking, hworking, hget]
        exact .halt hworking hget
    | some instruction =>
        cases hlimit : run.exhausted? with
        | some limit =>
            simp only [next, isWorking, hworking, hget, hlimit]
            exact .exhausted hworking hget hlimit
        | none =>
            have hready : run.Ready program instruction := ⟨hworking, hget, hlimit⟩
            rw [next_of_ready hready]
            cases hmode : run.control.mode with
            | skipping =>
                simp only [step, hmode]
                exact .skip hready hmode
            | running => exact step_transition hready hmode
  · rw [next_of_ended hworking]
    exact .ended hworking

/-! ## Counting transitions -/

/-- The run after at most `count` transitions. -/
def after (program : Program) : Nat → Run ι ο → Run ι ο
  | 0, run => run
  | count + 1, run => after program count (run.next program).1

/-- What the next `count` transitions report. -/
def events (program : Program) : Nat → Run ι ο → List Event
  | 0, _ => []
  | count + 1, run => (run.next program).2 ++ events program count (run.next program).1

@[simp]
theorem after_zero (run : Run ι ο) : run.after program 0 = run := rfl

theorem after_add (first second : Nat) (run : Run ι ο) :
    run.after program (first + second) = (run.after program first).after program second := by
  induction first generalizing run with
  | zero => rw [Nat.zero_add, after_zero]
  | succ first ih =>
      rw [Nat.succ_add]
      exact ih _

theorem after_succ (count : Nat) (run : Run ι ο) :
    run.after program (count + 1) = ((run.after program count).next program).1 :=
  after_add count 1 run

theorem events_add (first second : Nat) (run : Run ι ο) :
    run.events program (first + second) =
      run.events program first ++ (run.after program first).events program second := by
  induction first generalizing run with
  | zero => rw [Nat.zero_add, after_zero, events, List.nil_append]
  | succ first ih =>
      rw [Nat.succ_add, events, events, after, ih, List.append_assoc]

theorem events_succ (count : Nat) (run : Run ι ο) :
    run.events program (count + 1) =
      run.events program count ++ ((run.after program count).next program).2 := by
  rw [events_add, events, events, List.append_nil]

theorem after_of_ended {run : Run ι ο} (hended : run.status ≠ .working) (count : Nat) :
    run.after program count = run := by
  induction count with
  | zero => rfl
  | succ count ih => rw [after_succ, ih, next_of_ended hended]

theorem events_of_ended {run : Run ι ο} (hended : run.status ≠ .working) (count : Nat) :
    run.events program count = [] := by
  induction count with
  | zero => rfl
  | succ count ih => rw [events_succ, ih, after_of_ended hended, next_of_ended hended]; rfl

/-- Following a run gives the run after the transitions, and all that they report. -/
theorem follow_eq {σ : Type} (see : σ → Event → σ) (count : Nat) (run : Run ι ο) (seen : σ) :
    run.follow program see count seen =
      (run.after program count, (run.events program count).foldl see seen) := by
  induction count generalizing run seen with
  | zero => rfl
  | succ count ih =>
      by_cases hworking : run.status = .working
      · simp only [follow, isWorking, hworking, beq_self_eq_true, if_true]
        rw [ih, after, events, List.foldl_append]
      · have hended : run.isWorking = false := by simp [isWorking, hworking]
        rw [follow, hended, after_of_ended hworking, events_of_ended hworking]
        rfl

theorem limit_next (program : Program) (run : Run ι ο) :
    (run.next program).1.limit = run.limit := by
  have htransition := run.next_transition program
  generalize run.next program = next at htransition
  cases htransition <;> rfl

theorem limit_after (program : Program) (run : Run ι ο) (count : Nat) :
    (run.after program count).limit = run.limit := by
  induction count with
  | zero => rfl
  | succ count ih => rw [after_succ, limit_next, ih]

/-- A run that has ended did so in one of its transitions. -/
theorem exists_ending_transition {run : Run ι ο} (hworking : run.status = .working) {count : Nat}
    (hended : (run.after program count).status ≠ .working) :
    ∃ earlier < count, (run.after program earlier).status = .working ∧
      run.after program count = run.after program (earlier + 1) := by
  induction count with
  | zero => exact absurd hworking hended
  | succ count ih =>
      by_cases hlast : (run.after program count).status = .working
      · exact ⟨count, Nat.lt_succ_self _, hlast, rfl⟩
      · obtain ⟨earlier, hearlier, hstill, heq⟩ := ih hlast
        refine ⟨earlier, Nat.lt_succ_of_lt hearlier, hstill, ?_⟩
        rw [after_succ, next_of_ended hlast, heq]

/-- A run comes to its end with a status, and leaves a workspace behind. -/
def EndsWith (program : Program) (run : Run ι ο) (workspace : Workspace ι ο) (status : Status) :
    Prop :=
  status ≠ .working ∧
    ∃ count, (run.after program count).workspace = workspace ∧
      (run.after program count).status = status

/-- A run that has ended stays as it is, however long it is followed. -/
theorem after_eq_of_ended {run : Run ι ο} {first second : Nat}
    (hfirst : (run.after program first).status ≠ .working)
    (hsecond : (run.after program second).status ≠ .working) :
    run.after program first = run.after program second := by
  cases Nat.le_total first second with
  | inl hle =>
      obtain ⟨further, rfl⟩ := Nat.exists_eq_add_of_le hle
      rw [after_add, after_of_ended hfirst]
  | inr hle =>
      obtain ⟨further, rfl⟩ := Nat.exists_eq_add_of_le hle
      rw [after_add, after_of_ended hsecond]

/-- Nor does it report anything more. -/
theorem events_eq_of_ended {run : Run ι ο} {first second : Nat}
    (hfirst : (run.after program first).status ≠ .working)
    (hsecond : (run.after program second).status ≠ .working) :
    run.events program first = run.events program second := by
  cases Nat.le_total first second with
  | inl hle =>
      obtain ⟨further, rfl⟩ := Nat.exists_eq_add_of_le hle
      rw [events_add, events_of_ended hfirst, List.append_nil]
  | inr hle =>
      obtain ⟨further, rfl⟩ := Nat.exists_eq_add_of_le hle
      rw [events_add, events_of_ended hsecond, List.append_nil]

/-- A run comes to its end in a last state. -/
def Ends (program : Program) (run last : Run ι ο) : Prop :=
  last.status ≠ .working ∧ ∃ count, run.after program count = last

theorem Ends.unique {run first second : Run ι ο} (hfirst : run.Ends program first)
    (hsecond : run.Ends program second) : first = second := by
  obtain ⟨hfirst, count, rfl⟩ := hfirst
  obtain ⟨hsecond, count', rfl⟩ := hsecond
  exact after_eq_of_ended hfirst hsecond

theorem ends_of_after {run : Run ι ο} {count : Nat}
    (hended : (run.after program count).status ≠ .working) :
    run.Ends program (run.after program count) :=
  ⟨hended, count, rfl⟩

/-! ## Runs that come by another run -/

/-- One run is reached from another by some number of transitions. -/
def LeadsTo (program : Program) (run target : Run ι ο) : Prop :=
  ∃ count, run.after program count = target

theorem LeadsTo.refl (run : Run ι ο) : LeadsTo program run run :=
  ⟨0, rfl⟩

theorem LeadsTo.trans {run middle target : Run ι ο} (hfirst : LeadsTo program run middle)
    (hsecond : LeadsTo program middle target) : LeadsTo program run target := by
  obtain ⟨first, hfirst⟩ := hfirst
  obtain ⟨second, hsecond⟩ := hsecond
  exact ⟨first + second, by rw [after_add, hfirst, hsecond]⟩

theorem LeadsTo.of_next {run middle target : Run ι ο} (hnext : (run.next program).1 = middle)
    (hrest : LeadsTo program middle target) : LeadsTo program run target :=
  LeadsTo.trans ⟨1, hnext⟩ hrest

/-- A run that ends in time has not more left to do after it has come by another one. -/
theorem exists_ended_of_leadsTo {run target : Run ι ο} (hleads : LeadsTo program run target)
    {count : Nat} (hended : (run.after program count).status ≠ .working) :
    ∃ left ≤ count, (target.after program left).status ≠ .working := by
  obtain ⟨passed, hpassed⟩ := hleads
  cases Nat.le_total passed count with
  | inl hle =>
      obtain ⟨left, rfl⟩ := Nat.exists_eq_add_of_le hle
      rw [after_add, hpassed] at hended
      exact ⟨left, Nat.le_add_left left passed, hended⟩
  | inr hle =>
      obtain ⟨further, rfl⟩ := Nat.exists_eq_add_of_le hle
      rw [after_add, after_of_ended hended] at hpassed
      exact ⟨0, Nat.zero_le count, by rwa [after_zero, ← hpassed]⟩

theorem EndsWith.of_leadsTo {run target : Run ι ο} {workspace : Workspace ι ο} {status : Status}
    (hends : EndsWith program target workspace status) (hleads : LeadsTo program run target) :
    EndsWith program run workspace status := by
  obtain ⟨hstatus, further, hend⟩ := hends
  obtain ⟨count, rfl⟩ := hleads
  rw [← after_add] at hend
  exact ⟨hstatus, count + further, hend⟩

/-- A run has one end at most. -/
theorem EndsWith.unique {run : Run ι ο} {first second : Workspace ι ο} {left right : Status}
    (hfirst : EndsWith program run first left) (hsecond : EndsWith program run second right) :
    first = second ∧ left = right := by
  obtain ⟨hleft, count, rfl, rfl⟩ := hfirst
  obtain ⟨hright, count', rfl, rfl⟩ := hsecond
  have heq := after_eq_of_ended hleft hright
  exact ⟨congrArg Run.workspace heq, congrArg Run.status heq⟩

theorem endsWith_of_end {run : Run ι ο} (hworking : run.status = .working)
    (hget : program.get? run.control.position = none) :
    EndsWith program run run.workspace .halted := by
  refine ⟨by simp, 1, ?_⟩
  rw [after, next_of_end hworking hget]
  exact ⟨rfl, rfl⟩

end LetterMachine.Run
