import LetterMachine.Proofs.LoopControl
import LetterMachine.Proofs.Relocation

/-!
# One program after another

Two programs can be put together into one.  The whole runs as the first part does until that comes
to its end, and fails where the first part fails.  If the first part ends outside all loops, the
whole goes on as the second part does on the machine that the first has left, with the positions and
the steps of the first part added.  A loop that the first part has left open would take its end from
the second.
-/

namespace LetterMachine

namespace Program

/-- The instructions of one program, and after them those of another. -/
instance : Append Program where
  append first second := ⟨first.instructions ++ second.instructions⟩

variable {first second : Program}

theorem get?_append_of_lt {position : Nat} (hposition : position < first.size) :
    (first ++ second).get? position = first.get? position :=
  Array.getElem?_append_left hposition

theorem get?_append_size_add (position : Nat) :
    (first ++ second).get? (first.size + position) = second.get? position := by
  have hle : first.instructions.size ≤ first.size + position := Nat.le_add_right first.size position
  have hsub : first.size + position - first.instructions.size = position :=
    Nat.add_sub_cancel_left first.size position
  calc (first ++ second).get? (first.size + position)
      = second.instructions[first.size + position - first.instructions.size]? :=
        Array.getElem?_append_right hle
    _ = second.get? position := by rw [hsub, get?]

/-- At the end of a program that has no issues, no loop is left on the stack. -/
theorem stackAt_size_eq_nil {program : Program} (hissues : program.issues = []) :
    program.stackAt program.size = [] := by
  rw [List.eq_nil_iff_forall_not_mem]
  intro start hmem
  have hreported := unclosedOpen_mem_issues_iff.mpr hmem
  rw [hissues] at hreported
  exact List.not_mem_nil hreported

end Program

namespace Run

variable {ι ο : Type} [Source ι] [Sink ο] {program whole first second : Program}

/-! ## The first part -/

/-- What a run does next depends on the program only where it stands. -/
theorem next_congr {run : Run ι ο}
    (hget : whole.get? run.control.position = program.get? run.control.position) :
    run.next whole = run.next program := by
  simp only [next, hget]

/-- **The whole runs as its first part does**, as long as that has not come to its end. -/
theorem after_append {run : Run ι ο} {count : Nat}
    (hgoes : (run.after first count).status ≠ .halted) :
    run.after (first ++ second) count = run.after first count := by
  induction count with
  | zero => rfl
  | succ count ih =>
      rw [after_succ] at hgoes
      by_cases hworking : (run.after first count).status = .working
      · have hearlier : (run.after first count).status ≠ .halted := by
          rw [hworking]
          nofun
        cases hget : first.get? (run.after first count).control.position with
        | none =>
            rw [next_of_end hworking hget] at hgoes
            exact absurd rfl hgoes
        | some instruction =>
            have hlt := Program.lt_size_of_get? hget
            rw [after_succ, after_succ, ih hearlier, next_congr (Program.get?_append_of_lt hlt)]
      · rw [next_of_ended hworking] at hgoes
        rw [after_succ, after_succ, ih hgoes, next_of_ended hworking, next_of_ended hworking]

/-- A run that has halted stood at the end of its program just before. -/
theorem exists_working_of_halted {run : Run ι ο} (hworking : run.status = .working) {count : Nat}
    (hhalted : (run.after program count).status = .halted) :
    ∃ earlier, (run.after program earlier).status = .working ∧
      program.get? (run.after program earlier).control.position = none ∧
      run.after program count = { run.after program earlier with status := .halted } := by
  obtain ⟨earlier, -, hbefore, hlast⟩ :=
    exists_ending_transition hworking (by rw [hhalted]; nofun)
  refine ⟨earlier, hbefore, ?_⟩
  rw [hlast, after_succ] at hhalted ⊢
  have htransition := (run.after program earlier).next_transition program
  generalize (run.after program earlier).next program = next at htransition hhalted ⊢
  cases htransition with
  | ended hended => exact absurd hbefore hended
  | halt _ hget => exact ⟨hget, rfl⟩
  | exhausted | unmatched | mishap => cases hhalted
  | skip hready | enter hready | pass hready | back hready | leave hready | plain hready =>
      cases hready.working.symm.trans hhalted

/-- What makes a run pass over instructions is a `?` or a `!`. -/
theorem get?_of_begin {run : Run ι ο} (hrunning : run.control.mode = .running)
    (hskipping : (run.next program).1.control.mode = .skipping) :
    program.get? run.control.position = some .loopOpen ∨
      program.get? run.control.position = some .leave := by
  have hstill : run.control.mode ≠ .skipping := by
    rw [hrunning]
    nofun
  have htransition := run.next_transition program
  generalize run.next program = next at htransition hskipping
  cases htransition with
  | ended | halt | exhausted | unmatched | mishap | enter | plain => exact absurd hskipping hstill
  | skip _ hmode => exact absurd hmode hstill
  | pass hready => exact Or.inl hready.get?_eq
  | back _ _ hback =>
      obtain ⟨start, outer, -, rfl⟩ := Control.exists_of_back? hback
      exact absurd hskipping hstill
  | leave hready => exact Or.inr hready.get?_eq

theorem get?_of_passesSince {run : Run ι ο} {began count : Nat}
    (hsince : run.PassesSince program began count) :
    program.get? (run.after program began).control.position = some .loopOpen ∨
      program.get? (run.after program began).control.position = some .leave := by
  apply get?_of_begin hsince.running
  rw [← after_succ]
  exact hsince.skipping (began + 1) (Nat.lt_succ_self began) hsince.began_lt

/-! ## The second part -/

/-- A run comes to the same end from each of the states that it passes through. -/
theorem ends_after_iff {run last : Run ι ο} (count : Nat) :
    (run.after program count).Ends program last ↔ run.Ends program last := by
  constructor
  · intro hends
    obtain ⟨hended, further, rfl⟩ := hends
    exact ⟨hended, count + further, after_add count further run⟩
  · intro hends
    obtain ⟨hended, passed, rfl⟩ := hends
    refine ⟨hended, passed, ?_⟩
    rw [← after_add, Nat.add_comm, after_add, after_of_ended hended]

theorem ends_relocate_iff {run last : Run ι ο} {offset steps : Nat} (hfree : run.limit = none)
    (hget : ∀ position, whole.get? (offset + position) = program.get? position) :
    (run.relocate offset steps none).Ends whole last ↔
      ∃ last', run.Ends program last' ∧ last = last'.relocate offset steps none := by
  have hafter : ∀ count, (run.relocate offset steps none).after whole count =
      (run.after program count).relocate offset steps none :=
    fun count => after_relocate hfree hget (by simp)
  have hworking : ∀ run : Run ι ο,
      (run.relocate offset steps none).status = .working ↔ run.status = .working := by
    intro run
    cases hstatus : run.status <;> simp [relocate, Status.shift, hstatus]
  constructor
  · intro hends
    obtain ⟨hended, count, rfl⟩ := hends
    rw [hafter] at hended ⊢
    exact ⟨_, ends_of_after (mt (hworking _).mpr hended), rfl⟩
  · intro hends
    obtain ⟨last', ⟨hended, count, rfl⟩, rfl⟩ := hends
    exact ⟨mt (hworking _).mp hended, count, hafter count⟩

omit [Source ι] [Sink ο] in
/-- A working run at the end of its program, outside all loops, is in the state in which a run of
whatever comes after it starts. -/
theorem eq_relocate_start {run : Run ι ο} {size : Nat} (hfree : run.limit = none)
    (hworking : run.status = .working) (hposition : run.control.position = size)
    (hmode : run.control.mode = .running) (hopened : run.control.opened = [])
    (hdepth : run.control.depth = 0) :
    run = (run.machine.start run.workspace.input run.workspace.output).relocate
      size run.control.steps none := by
  obtain ⟨workspace, ⟨position, opened, depth, mode, steps⟩, limit, status⟩ := run
  subst hfree hworking hposition hmode hopened hdepth
  rfl

/-! ## Both parts -/

section FromStart

variable {machine : Machine} {input : ι} {output : ο}

theorem position_eq_size_of_end {count : Nat}
    (hget : program.get? ((machine.start input output).after program count).control.position =
      none) :
    ((machine.start input output).after program count).control.position = program.size :=
  Nat.le_antisymm (position_le_size program machine input output count)
    (Program.get?_eq_none_iff.mp hget)

theorem ends_append_of_halted {middle last : Run ι ο} (hfree : machine.limit = none)
    (hends : (machine.start input output).Ends first middle) (hhalted : middle.status = .halted)
    (hmode : middle.control.mode = .running) (hopened : middle.control.opened = []) :
    (machine.start input output).Ends (first ++ second) last ↔
      ∃ last', (middle.machine.start middle.workspace.input middle.workspace.output).Ends second
          last' ∧
        last = last'.relocate first.size middle.control.steps none := by
  obtain ⟨-, count, rfl⟩ := hends
  have hbegin : (machine.start input output).status = .working := rfl
  obtain ⟨earlier, hworking, hget, hmiddle⟩ := exists_working_of_halted hbegin hhalted
  have hposition := position_eq_size_of_end hget
  have hagrees := agrees_of_start first machine input output earlier
  have hlimit := (limit_after first (machine.start input output) earlier).trans hfree
  have hwhole : ((machine.start input output).after (first ++ second) earlier).Ends
      (first ++ second) last ↔ (machine.start input output).Ends (first ++ second) last :=
    ends_after_iff earlier
  rw [after_append (by rw [hworking]; nofun)] at hwhole
  rw [hmiddle] at hmode hopened ⊢
  have hcontrol := hagrees.executes hmode
  generalize (machine.start input output).after first earlier = before at *
  have hdepth : before.control.depth = 0 := by
    rw [hcontrol.depth_eq, hopened, List.length_nil]
  have hstart := eq_relocate_start hlimit hworking hposition hmode hopened hdepth
  calc (machine.start input output).Ends (first ++ second) last
      ↔ before.Ends (first ++ second) last := hwhole.symm
    _ ↔ ((before.machine.start before.workspace.input before.workspace.output).relocate first.size
          before.control.steps none).Ends (first ++ second) last := by rw [← hstart]
    _ ↔ _ := ends_relocate_iff hlimit Program.get?_append_size_add

/-- A run that has ended in passing over instructions, since a `!` outside all loops. -/
def LeftOutside (program : Program) (run last : Run ι ο) : Prop :=
  ∃ began count, run.after program count = last ∧ run.PassesSince program began count ∧
    program.get? (run.after program began).control.position = some .leave ∧
    program.openLoops (run.after program began).control.position = []

/-- A program without issues ends outside all loops, unless a `!` stands there. -/
theorem outside_of_issues_eq_nil {last : Run ι ο} (hissues : program.issues = [])
    (hends : (machine.start input output).Ends program last) (hhalted : last.status = .halted)
    (hleft : ¬(machine.start input output).LeftOutside program last) :
    last.control.mode = .running ∧ last.control.opened = [] := by
  obtain ⟨-, count, rfl⟩ := hends
  have hposition :
      ((machine.start input output).after program count).control.position = program.size := by
    have hbegin : (machine.start input output).status = .working := rfl
    obtain ⟨earlier, -, hget, hlast⟩ := exists_working_of_halted hbegin hhalted
    rw [hlast]
    exact position_eq_size_of_end hget
  have hstack := Program.stackAt_size_eq_nil hissues
  rw [← hposition] at hstack
  cases agrees_of_start program machine input output count with
  | inl hcontrol => exact ⟨hcontrol.mode_eq, hcontrol.opened_eq.trans hstack⟩
  | inr hpasses =>
      obtain ⟨began, passed, hsince, hcontrol⟩ := hpasses
      rw [hcontrol.stack_eq, List.append_eq_nil_iff] at hstack
      -- No loop is on the stack behind the instruction with which the passing over began.
      have horigin := hstack.2
      cases get?_of_passesSince hsince with
      | inl hopen =>
          rw [Program.stackAt_succ hopen] at horigin
          cases horigin
      | inr hleave =>
          rw [Program.stackAt_succ hleave] at horigin
          have houtside : program.openLoops
              ((machine.start input output).after program began).control.position = [] := by
            rw [Program.openLoops_eq, List.reverse_eq_nil_iff]
            exact horigin
          exact absurd ⟨began, count, rfl, hsince, hleave, houtside⟩ hleft

end FromStart

/-- **A program after another.**  Where the first fails, the whole fails in the same state.  Where
it comes to its end outside all loops, the whole goes on as the second does on the machine that the
first has left.  A program without issues ends outside all loops, unless a `!` stands there. -/
theorem ends_append (first second : Program) (machine : Machine) (input : ι) (output : ο) :
    let run := Machine.start { machine with limit := none } input output
    (∀ last failure, run.Ends first last → last.status = .failed failure →
      run.Ends (first ++ second) last) ∧
    (∀ middle, run.Ends first middle → middle.status = .halted →
      middle.control.mode = .running → middle.control.opened = [] →
      ∀ last, run.Ends (first ++ second) last ↔
        ∃ last', (middle.machine.start middle.workspace.input middle.workspace.output).Ends second
            last' ∧
          last = last'.relocate first.size middle.control.steps none) ∧
    (first.issues = [] → ∀ middle, run.Ends first middle → middle.status = .halted →
      ¬run.LeftOutside first middle →
      middle.control.mode = .running ∧ middle.control.opened = []) := by
  intro run
  refine ⟨?_, ?_, ?_⟩
  · intro last failure hends hfailed
    obtain ⟨hended, count, rfl⟩ := hends
    refine ⟨hended, count, after_append ?_⟩
    rw [hfailed]
    nofun
  · intro middle hends hhalted hmode hopened last
    exact ends_append_of_halted rfl hends hhalted hmode hopened
  · intro hissues middle hends hhalted hleft
    exact outside_of_issues_eq_nil hissues hends hhalted hleft

end Run

end LetterMachine
