import LetterMachine.Proofs.InputOutput
import LetterMachine.Proofs.Relocation
import Mathlib.Data.List.Basic

/-!
# The limit of steps

A limit only cuts a run off.  As long as there is a step left, a run with a limit does what the run
without one does, and `Run.after_withLimit` carries this along.  The limit is looked at after the
end of the program and before everything else, so a run that needs all of its steps still comes to
its end, and one that needs more stops in the state that the other run is in at that point.
-/

namespace LetterMachine

namespace Run

variable {ι ο : Type}

/-- The same run with another limit of steps. -/
def withLimit (limit? : Option Nat) (run : Run ι ο) : Run ι ο :=
  { run with limit := limit? }

variable [Source ι] [Sink ο] {program : Program}

/-! ## Steps -/

/-- A run that has no step to take comes to its end as it stands. -/
theorem next_of_not_ready {run : Run ι ο}
    (hready : ¬∃ instruction, run.Ready program instruction) :
    ∃ status, status ≠ .working ∧ (run.next program).1 = { run with status := status } := by
  by_cases hworking : run.status = .working
  · cases hget : program.get? run.control.position with
    | none => exact ⟨.halted, by simp, next_of_end hworking hget⟩
    | some instruction =>
        cases hlimit : run.exhausted? with
        | none => exact absurd ⟨instruction, hworking, hget, hlimit⟩ hready
        | some limit =>
            exact ⟨.failed (.stepsExhausted limit), by simp,
              next_of_exhausted hworking hget hlimit⟩
  · exact ⟨run.status, hworking, by rw [next_of_ended hworking]⟩

theorem exists_ready_of_working_next {run : Run ι ο}
    (hworking : (run.next program).1.status = .working) :
    ∃ instruction, run.Ready program instruction := by
  by_contra hready
  obtain ⟨status, hended, hnext⟩ := next_of_not_ready hready
  rw [hnext] at hworking
  exact hended hworking

/-- While a run is under way, every transition is a step. -/
theorem steps_after_of_working {run : Run ι ο} {count : Nat}
    (hworking : (run.after program count).status = .working) :
    (run.after program count).control.steps = run.control.steps + count := by
  induction count with
  | zero => rfl
  | succ count ih =>
      rw [after_succ] at hworking ⊢
      obtain ⟨instruction, hready⟩ := exists_ready_of_working_next hworking
      rw [steps_next_of_ready hready, ih hready.working, Nat.add_assoc]

theorem steps_next_bounds (program : Program) (run : Run ι ο) :
    run.control.steps ≤ (run.next program).1.control.steps ∧
      (run.next program).1.control.steps ≤ run.control.steps + 1 := by
  by_cases hready : ∃ instruction, run.Ready program instruction
  · obtain ⟨instruction, hready⟩ := hready
    rw [steps_next_of_ready hready]
    exact ⟨Nat.le_succ _, Nat.le_refl _⟩
  · obtain ⟨status, -, hnext⟩ := next_of_not_ready hready
    rw [hnext]
    exact ⟨Nat.le_refl _, Nat.le_succ _⟩

theorem steps_after_le (program : Program) (run : Run ι ο) (count : Nat) :
    (run.after program count).control.steps ≤ run.control.steps + count := by
  induction count with
  | zero => exact Nat.le_refl _
  | succ count ih =>
      rw [after_succ]
      have hnext := (steps_next_bounds program (run.after program count)).2
      omega

theorem steps_le_steps_after (program : Program) (run : Run ι ο) (count : Nat) :
    run.control.steps ≤ (run.after program count).control.steps := by
  induction count with
  | zero => exact Nat.le_refl _
  | succ count ih =>
      rw [after_succ]
      exact Nat.le_trans ih (steps_next_bounds program _).1

/-! ## The same run with a limit -/

omit [Source ι] [Sink ο] in
theorem relocate_zero (limit? : Option Nat) (run : Run ι ο) :
    run.relocate 0 0 limit? = run.withLimit limit? := by
  obtain ⟨workspace, control, limit, status⟩ := run
  have hcontrol : control.shift 0 0 = control := by simp [Control.shift]
  have hstatus : status.shift 0 = status := by
    cases status with
    | failed failure => cases failure <;> simp [Status.shift, Failure.shift]
    | _ => rfl
  simp only [relocate, withLimit, hcontrol, hstatus]

/-- A limit does not show as long as there is a step left for every instruction. -/
theorem after_withLimit {run : Run ι ο} {limit? : Option Nat} (hfree : run.limit = none)
    {count : Nat}
    (hleft : ∀ earlier < count, ∀ instruction,
      (run.after program earlier).Ready program instruction →
        ∀ limit ∈ limit?, (run.after program earlier).control.steps < limit) :
    (run.withLimit limit?).after program count = (run.after program count).withLimit limit? := by
  have hget : ∀ position, program.get? (0 + position) = program.get? position := by simp
  have hafter : (run.relocate 0 0 limit?).after program count = _ :=
    after_relocate hfree hget (by simpa using hleft)
  rwa [relocate_zero, relocate_zero] at hafter

/-! ## Runs that are cut off -/

section CutOff

variable {free : Run ι ο} {limit : Nat}

theorem after_limit (hfree : free.limit = none) (hsteps : free.control.steps = 0) :
    (free.withLimit (some limit)).after program limit =
      (free.after program limit).withLimit (some limit) := by
  apply after_withLimit hfree
  intro earlier hearlier instruction hready bound hbound
  obtain rfl := Option.some.inj hbound
  have hle := steps_after_le program free earlier
  omega

/-- At the limit there is no step left, and the run ends as it stands. -/
theorem exists_after_limit_succ (hfree : free.limit = none) (hsteps : free.control.steps = 0) :
    ∃ status, status ≠ .working ∧ (free.withLimit (some limit)).after program (limit + 1) =
      { (free.after program limit).withLimit (some limit) with status := status } := by
  rw [after_succ, after_limit hfree hsteps]
  apply next_of_not_ready
  intro ⟨instruction, hready⟩
  have htaken : (free.after program limit).control.steps = free.control.steps + limit :=
    steps_after_of_working hready.working
  have hleft : (free.after program limit).control.steps < limit :=
    exhausted?_eq_none_iff.mp hready.exhausted?_eq limit rfl
  omega

theorem ends_after_limit_succ (hfree : free.limit = none) (hsteps : free.control.steps = 0) :
    (free.withLimit (some limit)).Ends program
      ((free.withLimit (some limit)).after program (limit + 1)) := by
  obtain ⟨status, hstatus, hlast⟩ := exists_after_limit_succ hfree hsteps
  apply ends_of_after
  rw [hlast]
  exact hstatus

theorem ends_withLimit {last : Run ι ο} (hfree : free.limit = none)
    (hends : free.Ends program last) (hsteps : last.control.steps ≤ limit) :
    (free.withLimit (some limit)).Ends program (last.withLimit (some limit)) := by
  obtain ⟨hended, count, rfl⟩ := hends
  refine ⟨hended, count, after_withLimit hfree ?_⟩
  intro earlier hearlier instruction hready bound hbound
  obtain rfl := Option.some.inj hbound
  obtain ⟨further, rfl⟩ := Nat.exists_eq_add_of_lt hearlier
  -- A step that was taken is still counted at the end.
  have htaken := steps_next_of_ready hready
  have hkept := steps_le_steps_after program (free.after program (earlier + 1)) further
  rw [← after_add, Nat.add_right_comm, after_succ earlier] at hkept
  omega

theorem ends_exhausted (hfree : free.limit = none) (hsteps : free.control.steps = 0)
    (hlate : ∀ last, free.Ends program last → limit < last.control.steps) :
    (free.after program limit).control.steps = limit ∧
      (free.withLimit (some limit)).Ends program
        (((free.after program limit).withLimit (some limit)).fail (.stepsExhausted limit)) := by
  have hworking : (free.after program limit).status = .working := by
    by_contra hended
    have hlater := hlate _ (ends_of_after hended)
    have hle := steps_after_le program free limit
    omega
  have htaken : (free.after program limit).control.steps = limit := by
    rw [steps_after_of_working hworking, hsteps, Nat.zero_add]
  refine ⟨htaken, nofun, limit + 1, ?_⟩
  rw [after_succ, after_limit hfree hsteps]
  cases hget : program.get? (free.after program limit).control.position with
  | none =>
      -- The free run would end here, with all of its steps taken.
      have hend := next_of_end hworking hget
      rw [← after_succ] at hend
      have hlater := hlate _ (ends_of_after (by rw [hend]; nofun))
      rw [hend] at hlater
      exact absurd htaken (Nat.ne_of_gt hlater)
  | some instruction =>
      have hexhausted :
          ((free.after program limit).withLimit (some limit)).exhausted? = some limit := by
        simp [exhausted?, withLimit, htaken]
      exact next_of_exhausted hworking hget hexhausted

theorem steps_after_le_limit {run : Run ι ο} (hlimit : run.limit = some limit)
    (hsteps : run.control.steps ≤ limit) (count : Nat) :
    (run.after program count).control.steps ≤ limit := by
  induction count with
  | zero => exact hsteps
  | succ count ih =>
      rw [after_succ]
      by_cases hready : ∃ instruction, (run.after program count).Ready program instruction
      · obtain ⟨instruction, hready⟩ := hready
        rw [steps_next_of_ready hready]
        apply exhausted?_eq_none_iff.mp hready.exhausted?_eq limit
        rw [limit_after, hlimit]
        rfl
      · obtain ⟨status, -, hnext⟩ := next_of_not_ready hready
        rw [hnext]
        exact ih

theorem output_of_ends_withLimit {last : Run ι ο} (hfree : free.limit = none)
    (hsteps : free.control.steps = 0) (hends : (free.withLimit (some limit)).Ends program last) :
    last.workspace.output = (free.after program limit).workspace.output := by
  obtain ⟨status, -, hlast⟩ := exists_after_limit_succ hfree hsteps
  rw [hends.unique (ends_after_limit_succ hfree hsteps), hlast]
  rfl

/-- With a larger limit a run writes at least what it writes with a smaller one. -/
theorem written_prefix_of_le {larger : Nat} {last last' : Run ι ο} {written : ο → List UInt8}
    (hfree : free.limit = none) (hsteps : free.control.steps = 0)
    (hgrows : Sink.Grows written) (hle : limit ≤ larger)
    (hends : (free.withLimit (some limit)).Ends program last)
    (hends' : (free.withLimit (some larger)).Ends program last') :
    written last.workspace.output <+: written last'.workspace.output := by
  obtain ⟨further, rfl⟩ := Nat.exists_eq_add_of_le hle
  rw [output_of_ends_withLimit hfree hsteps hends, output_of_ends_withLimit hfree hsteps hends',
    after_add]
  exact written_after hgrows program _ further

end CutOff

/-- What a limit of steps makes of a run that has none. -/
structure CutsOff (program : Program) (free : Run ι ο) (limit : Nat) : Prop where
  /-- A run that ends within the limit ends in the same state. -/
  within : ∀ last, free.Ends program last → last.control.steps ≤ limit →
    (free.withLimit (some limit)).Ends program (last.withLimit (some limit))
  /-- Any other run stops where the free run stands after as many steps as the limit allows. -/
  beyond : (∀ last, free.Ends program last → limit < last.control.steps) →
    (free.after program limit).control.steps = limit ∧
      (free.withLimit (some limit)).Ends program
        (((free.after program limit).withLimit (some limit)).fail (.stepsExhausted limit))
  steps_le : ∀ count, ((free.withLimit (some limit)).after program count).control.steps ≤ limit
  ends : ∃ last, (free.withLimit (some limit)).Ends program last
  /-- A program that needs exactly as many steps as the limit allows comes to its end. -/
  just_enough : ∀ last, free.Ends program last → last.status = .halted →
    last.control.steps = limit →
      ∃ last', (free.withLimit (some limit)).Ends program last' ∧ last'.status = .halted
  /-- A larger limit only adds to what is written. -/
  written_prefix : ∀ larger, limit ≤ larger → ∀ last last',
    (free.withLimit (some limit)).Ends program last →
    (free.withLimit (some larger)).Ends program last' →
    ∀ written, Sink.Grows written → written last.workspace.output <+: written last'.workspace.output

/-- **A limit only cuts a run off.** -/
theorem limit_cutsOff (program : Program) (machine : Machine) (input : ι) (output : ο)
    (limit : Nat) :
    CutsOff program ((machine.start input output).withLimit none) limit where
  within _ hends hsteps := ends_withLimit rfl hends hsteps
  beyond hlate := ends_exhausted rfl rfl hlate
  steps_le count := steps_after_le_limit rfl (Nat.zero_le limit) count
  ends := ⟨_, ends_after_limit_succ rfl rfl⟩
  just_enough _ hends hhalted hsteps := ⟨_, ends_withLimit rfl hends (Nat.le_of_eq hsteps), hhalted⟩
  written_prefix _ hle _ _ hends hends' _ hgrows :=
    written_prefix_of_le rfl rfl hgrows hle hends hends'

end Run

end LetterMachine
