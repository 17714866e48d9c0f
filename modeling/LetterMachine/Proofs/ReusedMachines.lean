import LetterMachine.Proofs.Transitions

/-!
# Machines that have been used

A machine is kept from one run to the next, and a run may leave it in the middle of a loop, passing
over instructions, or out of steps.  The next run knows nothing of that.  Of all that has been done
with a machine before, no program can see more than the registers and the choice of the active one:
its run is that of a machine on which nothing has been run.
-/

namespace LetterMachine

namespace Machine

/-- What becomes of a machine in use.  Programs are run on it, each with a source and a sink of its
own, to their end or for any part of the way, and its registers are changed between the runs. -/
inductive Used (built : Machine) : Machine → Prop where
  | new : Used built built
  | ran {machine : Machine} (hused : Used built machine) {ι ο : Type} [Source ι] [Sink ο]
      (program : Program) (input : ι) (output : ο) (count : Nat) :
      Used built ((machine.start input output).after program count).machine
  | changed {machine : Machine} (hused : Used built machine) (bank : Bank) :
      Used built { machine with bank := bank }

/-- No program tells two machines apart. -/
structure RunsLike (machine other : Machine) : Prop where
  /-- The runs are in the same state at every point: they have the same status, control, registers
  and active register, and have read and written the same. -/
  after_eq : ∀ {ι ο : Type} [Source ι] [Sink ο] (program : Program) (input : ι) (output : ο)
    (count : Nat), (machine.start input output).after program count =
      (other.start input output).after program count
  /-- The runs report the same. -/
  events_eq : ∀ {ι ο : Type} [Source ι] [Sink ο] (program : Program) (input : ι) (output : ο)
    (count : Nat), (machine.start input output).events program count =
      (other.start input output).events program count
  /-- The runs come to the same end, if they come to any. -/
  ends_iff : ∀ {ι ο : Type} [Source ι] [Sink ο] (program : Program) (input : ι) (output : ο)
    (last : Run ι ο), (machine.start input output).Ends program last ↔
      (other.start input output).Ends program last

variable {built machine other : Machine}

/-- A run starts from the registers, the active register and the limit of its machine. -/
theorem start_congr {ι ο : Type} (hbank : machine.bank = other.bank)
    (hactive : machine.active = other.active) (hlimit : machine.limit = other.limit) (input : ι)
    (output : ο) : machine.start input output = other.start input output := by
  rw [start, start, hbank, hactive, hlimit]

theorem runsLike_of_eq (hbank : machine.bank = other.bank) (hactive : machine.active = other.active)
    (hlimit : machine.limit = other.limit) : machine.RunsLike other where
  after_eq program input output count := by rw [start_congr hbank hactive hlimit]
  events_eq program input output count := by rw [start_congr hbank hactive hlimit]
  ends_iff program input output last := by rw [start_congr hbank hactive hlimit]

/-- Whatever is done with a machine, its limit stays. -/
theorem Used.limit_eq (hused : built.Used machine) : machine.limit = built.limit := by
  induction hused with
  | new => rfl
  | ran _ program input output count ih => exact (Run.limit_after program _ count).trans ih
  | changed _ bank ih => exact ih

/-- **A machine that has been used runs every program as a new one does**, if the new one is given
its registers, its active register and the limit that it was built with. -/
theorem used_runsLike_new (hused : built.Used machine) :
    machine.RunsLike { bank := machine.bank, active := machine.active, limit := built.limit } :=
  runsLike_of_eq rfl rfl hused.limit_eq

/-- A machine has failed in a loop, then passed over instructions to the end of a program, and then
run out of steps in a loop. -/
theorem used_runsLike_new_of_failures :
    let built : Machine := { limit := some 9 }
    let run : Machine → List Char → Nat → Run ByteStream OutputBuffer :=
      fun machine text count => (machine.start ⟨[], false⟩ {}).after (.ofChars text) count
    let first := run built ['1', '?', '1', '0', '%'] 5
    let second := run first.machine ['1', '?', '0', '?'] 5
    let third := run second.machine ['1', '?', '1', '\\'] 10
    let machine := { third.machine with bank := .empty }
    (first.status = .failed (.remainderByZero 4) ∧ first.control.opened = [1]) ∧
      (second.status = .halted ∧ second.control.mode = .skipping ∧ second.control.depth = 1) ∧
      (third.status = .failed (.stepsExhausted 9) ∧ third.control.steps = 9) ∧
      machine.RunsLike built ∧
      (run machine ['5', '@'] 3).status = .halted ∧
      (run machine ['5', '@'] 3).workspace.output.written = [5] := by
  intro built run first second third machine
  have hused : built.Used machine := (((Used.new.ran _ _ _ 5).ran _ _ _ 5).ran _ _ _ 10).changed _
  have hactive : machine.active = default := by decide
  have hlike := used_runsLike_new hused
  rw [hactive] at hlike
  have hafter : run machine ['5', '@'] 3 = run built ['5', '@'] 3 := hlike.after_eq _ _ _ _
  rw [hafter]
  exact ⟨⟨by decide, by decide⟩, ⟨by decide, by decide, by decide⟩, ⟨by decide, by decide⟩, hlike,
    by decide, by decide⟩

end Machine

end LetterMachine
