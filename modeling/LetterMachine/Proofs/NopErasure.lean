import LetterMachine.Proofs.LoopControl
import LetterMachine.Proofs.NopPositions
import LetterMachine.Proofs.Relocation

/-!
# Runs without nops

A run of a program goes along with a run of the same program without its nops.  While the first
takes a step over a nop, the second waits; any other step they take together, the second at the
positions to which the nops left out have moved the instructions.  So one comes to its end if the
other does, and the end of the first is that of the second, with its positions led back to their
origins.
-/

namespace LetterMachine

theorem Status.place_place {first second : Nat → Nat} (status : Status) :
    (status.place first).place second = status.place (second ∘ first) := by
  cases status with
  | failed failure => cases failure <;> rfl
  | _ => rfl

namespace Run

variable {ι ο : Type} {program : Program} {run : Run ι ο}

/-- The positions that a run shows are of instructions that stay without the nops: the one where it
stands, which is also the one that a failure tells, and those of its open loops. -/
structure Anchored (program : Program) (run : Run ι ο) : Prop where
  position : program.Stays run.control.position
  opened : ∀ start ∈ run.control.opened, program.Stays start
  status : ∀ positions : Nat → Nat,
    positions run.control.position = run.control.position → run.status.place positions = run.status

/-- Positions that stay are led back to what they were. -/
theorem Anchored.place_origin (hanchored : run.Anchored program) (hfree : run.limit = none)
    (steps : Nat) :
    (run.place program.rank steps none).place program.origin run.control.steps none = run := by
  have hposition := Program.origin_rank hanchored.position
  have hstatus := hanchored.status (program.origin ∘ program.rank) hposition
  have hopened : run.control.opened.map (program.origin ∘ program.rank) = run.control.opened :=
    (List.map_congr_left fun start hmem =>
      Program.origin_rank (hanchored.opened start hmem)).trans (List.map_id _)
  obtain ⟨workspace, ⟨position, opened, depth, mode, taken⟩, limit, status⟩ := run
  subst hfree
  simp only [place, Control.place, List.map_map, Status.place_place]
  rw [hopened, hstatus, hposition]

variable [Source ι] [Sink ο]

/-! ## One transition -/

/-- A nop makes a run go on to the next position, whether it is executed or passed over. -/
theorem next_of_nop {character : Char} (hready : run.Ready program (.nop character)) :
    (run.next program).1 = { run with control := run.control.countStep.advance } := by
  rw [next_of_ready hready]
  cases hmode : run.control.mode <;> simp only [step, hmode] <;> rfl

/-- While a run steps over nops, the run without them waits. -/
theorem place_next_of_not_stays (hfree : run.limit = none)
    (hstays : ¬program.Stays run.control.position) (steps : Nat) :
    (run.next program).1.place program.rank steps none = run.place program.rank steps none := by
  have hrank := Program.rank_succ_of_not_stays hstays
  obtain ⟨character, hget⟩ := Program.exists_nop_of_not_stays hstays
  by_cases hworking : run.status = .working
  · have hready : run.Ready program (.nop character) :=
      ⟨hworking, hget, exhausted?_eq_none_iff.mpr (by simp [hfree])⟩
    rw [next_of_nop hready]
    simp only [place, Control.place, Control.countStep, Control.advance, hrank]
  · rw [next_of_ended hworking]

/-- Where there is no nop, both runs go on together. -/
theorem exists_next_place (hfree : run.limit = none)
    (hstays : program.Stays run.control.position) (steps : Nat) :
    ∃ steps', ((run.place program.rank steps none).next program.withoutNops).1 =
      (run.next program).1.place program.rank steps' none := by
  have hget := Program.get?_withoutNops_rank hstays
  by_cases hworking : run.status = .working
  · have hworking' : (run.place program.rank steps none).status = .working := by
      simp [place, hworking]
    cases hinstruction : program.get? run.control.position with
    | none =>
        rw [next_of_end hworking hinstruction, next_of_end hworking' (hget.trans hinstruction)]
        exact ⟨steps, rfl⟩
    | some instruction =>
        have hready : run.Ready program instruction :=
          ⟨hworking, hinstruction, exhausted?_eq_none_iff.mpr (by simp [hfree])⟩
        have hready' : (run.place program.rank steps none).Ready program.withoutNops instruction :=
          ⟨hworking', hget.trans hinstruction, rfl⟩
        rw [next_of_ready hready, next_of_ready hready',
          step_place steps none (Program.rank_succ_of_stays hstays)]
        exact ⟨steps + 1, rfl⟩
  · have hended : (run.place program.rank steps none).status ≠ .working := by
      simpa [place] using hworking
    rw [next_of_ended hworking, next_of_ended hended]
    exact ⟨steps, rfl⟩

/-! ## Whole runs -/

/-- The run without nops comes by whatever the run comes by. -/
theorem exists_after_place (hfree : run.limit = none) (steps count : Nat) :
    ∃ count' steps', (run.place program.rank steps none).after program.withoutNops count' =
      (run.after program count).place program.rank steps' none := by
  induction count with
  | zero => exact ⟨0, steps, rfl⟩
  | succ count ih =>
      obtain ⟨count', steps', hearlier⟩ := ih
      have hlimit := (limit_after program run count).trans hfree
      rw [after_succ]
      by_cases hstays : program.Stays (run.after program count).control.position
      · obtain ⟨steps'', hnext⟩ := exists_next_place hlimit hstays steps'
        refine ⟨count' + 1, steps'', ?_⟩
        rw [after_succ, hearlier, hnext]
      · refine ⟨count', steps', ?_⟩
        rw [hearlier, place_next_of_not_stays hlimit hstays]

/-- A run comes past the nops that it stands before, unless it has ended. -/
theorem exists_after_stays (hfree : run.limit = none) :
    ∃ count, (program.Stays (run.after program count).control.position ∨
        (run.after program count).status ≠ .working) ∧
      ∀ steps, (run.after program count).place program.rank steps none =
        run.place program.rank steps none := by
  -- The instructions that are left become fewer with every nop.
  generalize hleft : program.size - run.control.position = left
  induction left generalizing run with
  | zero =>
      have hget : program.get? run.control.position = none :=
        Program.get?_eq_none_iff.mpr (Nat.le_of_sub_eq_zero hleft)
      exact ⟨0, Or.inl (Program.stays_of_end hget), fun _ => rfl⟩
  | succ left ih =>
      by_cases hgoes : program.Stays run.control.position ∨ run.status ≠ .working
      · exact ⟨0, hgoes, fun _ => rfl⟩
      · obtain ⟨hstays, hworking⟩ := not_or.mp hgoes
        obtain ⟨character, hget⟩ := Program.exists_nop_of_not_stays hstays
        have hready : run.Ready program (.nop character) :=
          ⟨not_not.mp hworking, hget, exhausted?_eq_none_iff.mpr (by simp [hfree])⟩
        have hposition : (run.next program).1.control.position = run.control.position + 1 := by
          rw [next_of_nop hready]
          rfl
        obtain ⟨count, hcount, hsame⟩ :=
          ih ((limit_next program run).trans hfree) (by rw [hposition]; omega)
        refine ⟨count + 1, hcount, ?_⟩
        intro steps
        exact (hsame steps).trans (place_next_of_not_stays hfree hstays steps)

/-- If the run without nops comes to its end, so does the run. -/
theorem exists_ended_of_place {steps count' : Nat} (hfree : run.limit = none)
    (hended : ((run.place program.rank steps none).after program.withoutNops count').status ≠
      .working) :
    ∃ count, (run.after program count).status ≠ .working := by
  induction count' generalizing run steps with
  | zero => exact ⟨0, by simpa [place] using hended⟩
  | succ count' ih =>
      obtain ⟨passed, hpassed, hsame⟩ := @exists_after_stays _ _ program run _ _ hfree
      cases hpassed with
      | inr hstatus => exact ⟨passed, hstatus⟩
      | inl hstays =>
          have hlimit := (limit_after program run passed).trans hfree
          obtain ⟨steps', hnext⟩ := exists_next_place hlimit hstays steps
          rw [after, ← hsame, hnext] at hended
          obtain ⟨count, hcount⟩ := ih ((limit_next program _).trans hlimit) hended
          rw [← after_succ, ← after_add] at hcount
          exact ⟨passed + 1 + count, hcount⟩

/-! ## The end of a run -/

/-- A run ends where there is no nop, and a failure that tells a position tells this one. -/
theorem anchored_of_next_ended (hfree : run.limit = none) (hworking : run.status = .working)
    (hended : (run.next program).1.status ≠ .working)
    (hopened : ∀ start ∈ (run.next program).1.control.opened, program.Stays start) :
    (run.next program).1.Anchored program := by
  have htransition := run.next_transition program
  generalize run.next program = next at htransition hended hopened
  cases htransition with
  | ended hstatus => exact absurd hworking hstatus
  | halt _ hget => exact ⟨Program.stays_of_end hget, hopened, fun _ _ => rfl⟩
  | exhausted _ _ hlimit => simp [exhausted?, hfree] at hlimit
  | skip | enter | pass | back | leave | plain => exact absurd hworking hended
  | unmatched hready =>
      refine ⟨(Program.stays_of_get? hready.get?_eq).mpr rfl, hopened, ?_⟩
      intro positions hposition
      exact congrArg (Status.failed <| .unmatchedLoopClose ·) hposition
  | @mishap instruction _ mishap hready _ _ hexecute =>
      have hnop : instruction.isNop = false := by
        cases instruction with
        | nop => cases hexecute
        | _ => rfl
      refine ⟨(Program.stays_of_get? hready.get?_eq).mpr hnop, hopened, ?_⟩
      intro positions hposition
      cases mishap with
      | remainderByZero => exact congrArg (Status.failed <| .remainderByZero ·) hposition
      | io fault => rfl

section FromStart

variable {machine : Machine} {input : ι} {output : ο}

/-- The loops that a run has open start where there is no nop. -/
theorem stays_of_mem_opened {count start : Nat}
    (hmem : start ∈ ((machine.start input output).after program count).control.opened) :
    program.Stays start := by
  have hget : program.get? start = some .loopOpen := by
    cases agrees_of_start program machine input output count with
    | inl hcontrol =>
        rw [hcontrol.opened_eq] at hmem
        exact Program.get?_of_mem_stackAt hmem
    | inr hpasses =>
        obtain ⟨began, passed, -, hcontrol⟩ := hpasses
        rw [hcontrol.opened_eq] at hmem
        exact Program.get?_of_mem_stackAt (List.mem_of_mem_tail hmem)
  exact (Program.stays_of_get? hget).mpr rfl

theorem anchored_of_ended (hfree : machine.limit = none) {count : Nat}
    (hended : ((machine.start input output).after program count).status ≠ .working) :
    ((machine.start input output).after program count).Anchored program := by
  have hbegin : (machine.start input output).status = .working := rfl
  obtain ⟨earlier, -, hworking, hlast⟩ := exists_ending_transition hbegin hended
  have hlimit := (limit_after program (machine.start input output) earlier).trans hfree
  rw [hlast, after_succ] at hended ⊢
  have hopened : ∀ start ∈
      (((machine.start input output).after program earlier).next program).1.control.opened,
      program.Stays start := by
    intro start hmem
    rw [← after_succ] at hmem
    exact stays_of_mem_opened hmem
  exact anchored_of_next_ended hlimit hworking hended hopened

omit [Source ι] [Sink ο] in
theorem place_start (program : Program) (hfree : machine.limit = none) :
    (machine.start input output).place program.rank 0 none = machine.start input output := by
  have hrank : program.rank 0 = 0 := Nat.count_zero program.Stays
  simp only [place, Machine.start, Control.place, hrank, hfree]
  rfl

/-- When a run has ended, so has the run without nops, in the same state at its own positions. -/
theorem exists_ends_withoutNops (hfree : machine.limit = none) {last : Run ι ο}
    (hends : (machine.start input output).Ends program last) :
    ∃ steps, (machine.start input output).Ends program.withoutNops
      (last.place program.rank steps none) := by
  obtain ⟨hended, count, rfl⟩ := hends
  obtain ⟨count', steps, hafter⟩ :=
    @exists_after_place _ _ program (machine.start input output) _ _ hfree 0 count
  rw [place_start program hfree] at hafter
  refine ⟨steps, ?_, count', hafter⟩
  simpa [place] using hended

/-- A run comes to its end if it does so without nops, and only then. -/
theorem ends_iff_withoutNops (hfree : machine.limit = none) :
    (∃ last, (machine.start input output).Ends program last) ↔
      ∃ last, (machine.start input output).Ends program.withoutNops last := by
  constructor
  · intro hends
    obtain ⟨last, hends⟩ := hends
    obtain ⟨steps, hends'⟩ := exists_ends_withoutNops hfree hends
    exact ⟨_, hends'⟩
  · intro hends
    obtain ⟨last, hended, count', rfl⟩ := hends
    rw [← place_start program hfree] at hended
    obtain ⟨count, hcount⟩ := exists_ended_of_place hfree hended
    exact ⟨_, ends_of_after hcount⟩

/-- The end of a run is that of the run without nops, led back to the origins. -/
theorem eq_place_of_ends {last last' : Run ι ο} (hfree : machine.limit = none)
    (hends : (machine.start input output).Ends program last)
    (hends' : (machine.start input output).Ends program.withoutNops last') :
    last = last'.place program.origin last.control.steps none := by
  obtain ⟨steps, hplaced⟩ := exists_ends_withoutNops hfree hends
  obtain ⟨hended, count, rfl⟩ := hends
  have hlimit := (limit_after program (machine.start input output) count).trans hfree
  rw [hends'.unique hplaced, (anchored_of_ended hfree hended).place_origin hlimit]

end FromStart

/-- **Nops only take steps.**  A run without a limit comes to its end if the run of the program
without its nops does, and only then.  Both ends are the same, but for the count of steps and for
the positions, which are led back to their origins: both have read and written the same, and have
the same registers, the same loops open, and the same success or failure.  Likewise the instructions
that stay, the loop table of the program and its issues are those of the program without its nops.
-/
theorem ends_withoutNops (program : Program) (machine : Machine) (input : ι) (output : ο) :
    let run := Machine.start { machine with limit := none } input output
    ((∃ last, run.Ends program last) ↔ ∃ last, run.Ends program.withoutNops last) ∧
    (∀ last last', run.Ends program last → run.Ends program.withoutNops last' →
      last = last'.place program.origin last.control.steps none) ∧
    (∀ position, program.get? (program.origin position) = program.withoutNops.get? position) ∧
    program.loops = program.withoutNops.loops.place program.origin ∧
    (∀ position, program.loops.partner? (program.origin position) =
      (program.withoutNops.loops.partner? position).map program.origin) ∧
    program.issues = program.withoutNops.issues.map (·.place program.origin) := by
  intro run
  refine ⟨ends_iff_withoutNops rfl, ?_, program.get?_origin, program.loops_eq_place,
    program.partner?_origin, program.issues_eq_map_place⟩
  intro last last' hends hends'
  exact eq_place_of_ends rfl hends hends'

end Run

end LetterMachine
