import LetterMachine.CommandLine.Session
import LetterMachine.Proofs.LoopControl

/-!
# The end of a loop that was never opened

A run fails at a `\` if it has no loop open there.  Which loops it has open depends on the way it
has come, through loops entered, left and passed over, but whether it has one open does not: it has
none exactly at those `\` that are reported as unmatched without running the program.
-/

namespace LetterMachine.Run

variable {ι ο : Type} [Source ι] [Sink ο] {program : Program}

/-- The run comes to a position to execute the instruction there, and has a step left for it. -/
def Reaches (program : Program) (run : Run ι ο) (position : Nat) : Prop :=
  ∃ count, (run.after program count).status = .working ∧
    (run.after program count).control.mode = .running ∧
    (run.after program count).control.position = position ∧
    ∀ limit ∈ (run.after program count).limit, (run.after program count).control.steps < limit

/-- Only one transition fails for want of an open loop. -/
theorem unmatched_of_status_next {run : Run ι ο} {position : Nat}
    (hworking : run.status = .working)
    (hfailed : (run.next program).1.status = .failed (.unmatchedLoopClose position)) :
    run.Ready program .loopClose ∧ run.control.mode = .running ∧ run.control.opened = [] ∧
      run.control.position = position := by
  have htransition := run.next_transition program
  generalize run.next program = next at hfailed htransition
  cases htransition with
  | ended hended => exact absurd hworking hended
  | halt => cases hfailed
  | exhausted => cases hfailed
  | unmatched hready hmode hopened =>
      have hposition := Failure.unmatchedLoopClose.inj (Status.failed.inj hfailed)
      exact ⟨hready, hmode, hopened, hposition⟩
  | @mishap instruction workspace mishap =>
      have hfailure := Status.failed.inj hfailed
      cases mishap <;> cases hfailure
  | skip | enter | pass | back | leave | plain =>
      rw [hworking] at hfailed
      cases hfailed

theorem status_next_of_unmatched {run : Run ι ο} (hready : run.Ready program .loopClose)
    (hmode : run.control.mode = .running) (hopened : run.control.opened = []) :
    (run.next program).1.status = .failed (.unmatchedLoopClose run.control.position) := by
  rw [next_of_ready hready]
  simp only [step, hmode, execute, closeLoop, Control.back?, Control.countStep, hopened]
  rfl

theorem next_of_back {run : Run ι ο} {start : Nat} {outer : List Nat}
    (hready : run.Ready program .loopClose) (hmode : run.control.mode = .running)
    (hopened : run.control.opened = start :: outer) :
    (run.next program).1.status = .working ∧ (run.next program).1.control.position = start := by
  rw [next_of_ready hready]
  simp only [step, hmode, execute, closeLoop, Control.back?, Control.countStep, hopened]
  exact ⟨hready.working, trivial⟩

omit [Source ι] [Sink ο] in
/-- An open loop is missing exactly at a `\` that is reported. -/
theorem opened_eq_nil_iff {run : Run ι ο} (hready : run.Ready program .loopClose)
    (hcontrol : run.control.Executes program) :
    run.control.opened = [] ↔ .unmatchedClose run.control.position ∈ program.issues := by
  rw [Program.unmatchedClose_mem_issues_iff, hcontrol.opened_eq]
  exact (and_iff_right hready.get?_eq).symm

section FromStart

variable (program : Program) (machine : Machine) (input : ι) (output : ο)

/-- Reaching a reported `\` is the only way to fail for want of an open loop, and always does. -/
theorem exists_unmatched_iff_reaches (position : Nat) :
    (∃ count, ((machine.start input output).after program count).status =
        .failed (.unmatchedLoopClose position)) ↔
      (machine.start input output).Reaches program position ∧
        .unmatchedClose position ∈ program.issues := by
  have hexecutes := fun count => (agrees_of_start program machine input output count).executes
  constructor
  · rintro ⟨count, hfailed⟩
    have hended : ((machine.start input output).after program count).status ≠ .working := by
      rw [hfailed]
      simp
    obtain ⟨earlier, -, hworking, hlast⟩ := exists_ending_transition rfl hended
    rw [hlast, after_succ] at hfailed
    obtain ⟨hready, hmode, hopened, hposition⟩ := unmatched_of_status_next hworking hfailed
    have hreported := (opened_eq_nil_iff hready (hexecutes earlier hmode)).mp hopened
    rw [hposition] at hreported
    have hleft := exhausted?_eq_none_iff.mp hready.exhausted?_eq
    exact ⟨⟨earlier, hworking, hmode, hposition, hleft⟩, hreported⟩
  · rintro ⟨⟨count, hworking, hmode, rfl, hleft⟩, hreported⟩
    have hget := (Program.unmatchedClose_mem_issues_iff.mp hreported).1
    have hready : ((machine.start input output).after program count).Ready program .loopClose :=
      ⟨hworking, hget, exhausted?_eq_none_iff.mpr hleft⟩
    have hopened := (opened_eq_nil_iff hready (hexecutes count hmode)).mpr hreported
    refine ⟨count + 1, ?_⟩
    rw [after_succ]
    exact status_next_of_unmatched hready hmode hopened

theorem not_unmatched_of_not_reported
    (hissues : ∀ position, .unmatchedClose position ∉ program.issues) (count position : Nat) :
    ((machine.start input output).after program count).status ≠
      .failed (.unmatchedLoopClose position) := by
  intro hfailed
  have hreaches := (exists_unmatched_iff_reaches program machine input output position).mp
    ⟨count, hfailed⟩
  exact hissues position hreaches.2

/-- A `\` that is not reported goes back to its partner. -/
theorem back_of_not_reported {count : Nat}
    (hready : ((machine.start input output).after program count).Ready program .loopClose)
    (hmode : ((machine.start input output).after program count).control.mode = .running)
    (hreported : .unmatchedClose ((machine.start input output).after program count).control.position
      ∉ program.issues) :
    ((machine.start input output).after program (count + 1)).status = .working ∧
      program.loops.partner? ((machine.start input output).after program count).control.position =
        some ((machine.start input output).after program (count + 1)).control.position := by
  have hcontrol := (agrees_of_start program machine input output count).executes hmode
  have hopened := mt (opened_eq_nil_iff hready hcontrol).mp hreported
  obtain ⟨start, outer, hcons⟩ := List.exists_cons_of_ne_nil hopened
  obtain ⟨hworking, hposition⟩ := next_of_back hready hmode hcons
  rw [after_succ, hposition, Program.partner?_of_close hready.get?_eq, ← hcontrol.opened_eq, hcons]
  exact ⟨hworking, rfl⟩

end FromStart

/-- A check that finds nothing has read a program without issues. -/
theorem issues_eq_nil_of_check {σ : Type} [Device σ] {stdout : σ} {world : CommandLine.World}
    {path : String} {response : CommandLine.Response}
    (hresponse : (CommandLine.Task.check world stdout ⟨path⟩).response? = some response)
    (hexit : response.exit = 0) :
    ∃ checked, world.load path = .ok checked ∧ checked.issues = [] := by
  rw [CommandLine.Task.check] at hresponse
  cases hload : world.load path with
  | error error =>
      rw [hload] at hresponse
      obtain rfl := Option.some.inj hresponse
      cases hexit
  | ok checked =>
      rw [hload] at hresponse
      obtain rfl := Option.some.inj hresponse
      refine ⟨checked, rfl, ?_⟩
      cases hissues : checked.issues with
      | nil => rfl
      | cons issue rest => simp [hissues] at hexit

/-- **The report of unmatched ends is exact.**  A run fails at a position for want of an open loop
exactly if it comes there to execute the instruction, with a step left for it, and the position is
reported as an unmatched `\`.  At any other `\` the run goes back to the loop that the loop table
gives it.  So a program without such a report never fails in this way, and neither does a program in
a file that passes the check. -/
theorem fails_unmatched_iff_reported (program : Program) (machine : Machine) (input : ι)
    (output : ο) :
    let run := machine.start input output
    (∀ position,
      (∃ count, (run.after program count).status = .failed (.unmatchedLoopClose position)) ↔
        run.Reaches program position ∧ .unmatchedClose position ∈ program.issues) ∧
    (∀ count, (run.after program count).Ready program .loopClose →
      (run.after program count).control.mode = .running →
      .unmatchedClose (run.after program count).control.position ∉ program.issues →
      (run.after program (count + 1)).status = .working ∧
        program.loops.partner? (run.after program count).control.position =
          some (run.after program (count + 1)).control.position) ∧
    ((∀ position, .unmatchedClose position ∉ program.issues) → ∀ count position,
      (run.after program count).status ≠ .failed (.unmatchedLoopClose position)) ∧
    (∀ (σ : Type) [Device σ] (stdout : σ) world path response,
      (CommandLine.Task.check world stdout ⟨path⟩).response? = some response →
      response.exit = 0 → ∃ checked, world.load path = .ok checked ∧ ∀ count position,
        (run.after checked count).status ≠ .failed (.unmatchedLoopClose position)) := by
  intro run
  refine ⟨exists_unmatched_iff_reaches program machine input output, ?_, ?_, ?_⟩
  · intro count hready hmode hreported
    exact back_of_not_reported program machine input output hready hmode hreported
  · exact not_unmatched_of_not_reported program machine input output
  · intro σ _ stdout world path response hresponse hexit
    obtain ⟨checked, hload, hissues⟩ := issues_eq_nil_of_check hresponse hexit
    refine ⟨checked, hload, ?_⟩
    apply not_unmatched_of_not_reported checked machine input output
    intro position
    rw [hissues]
    exact List.not_mem_nil

end LetterMachine.Run
