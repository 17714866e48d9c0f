import LetterMachine.Proofs.BackJumps
import LetterMachine.Proofs.StraightLine
import LetterMachine.Proofs.Structured

/-!
# Loops with straight bodies

A loop whose body has no loop instructions in it takes the same number of steps in every round: one
for its condition, one for each instruction of its body, and one for the way back.  The last time,
when the condition is false, it passes over its body instead, and that takes as many.  So a program
with such a loop as its only one is known to the step once it is known what its parts do to the
workspace, and how many rounds there are.
-/

namespace LetterMachine

variable {ι ο : Type} [Source ι] [Sink ο]

/-- A loop with this body goes through so many rounds, and makes one workspace of another. -/
inductive Workspace.Rounds (body : List Instruction) : Nat → Workspace ι ο → Workspace ι ο → Prop
  where
  | done {before after : Workspace ι ο} (htake : before.takeCondition = (false, after)) :
      Rounds body 0 before after
  | round {count : Nat} {before entered middle after : Workspace ι ο}
      (htake : before.takeCondition = (true, entered)) (hbody : entered.Performs body middle)
      (hrest : Rounds body count middle after) : Rounds body (count + 1) before after

instance (instruction : Instruction) : Decidable (Run.IsPlain instruction) :=
  inferInstanceAs (Decidable (_ ∧ _))

theorem Run.isPlain_nop (character : Char) : Run.IsPlain (.nop character) :=
  ⟨rfl, Instruction.noConfusion⟩

theorem LoopTable.pairsFrom_append_of_plain {first : List Instruction}
    (hplain : ∀ instruction ∈ first, Run.IsPlain instruction) (position : Nat) (opened : List Nat)
    (rest : List Instruction) :
    pairsFrom position opened (first ++ rest) =
      pairsFrom (position + first.length) opened rest := by
  induction first generalizing position with
  | nil => rfl
  | cons instruction first ih =>
      obtain ⟨⟨hbracket, -⟩, htail⟩ := List.forall_mem_cons.mp hplain
      have hposition : position + (first.length + 1) = position + 1 + first.length := by omega
      rw [List.length_cons, hposition, ← ih htail]
      cases instruction <;> first | rfl | cases hbracket

/-- A program with a single loop: none of its instructions before it, in it and behind it has
anything to do with loops. -/
structure Program.HasLoop (program : Program) (front body behind : List Instruction) : Prop where
  instructions_eq :
    program.instructions.toList = front ++ .loopOpen :: (body ++ .loopClose :: behind)
  front_plain : ∀ instruction ∈ front, Run.IsPlain instruction
  body_plain : ∀ instruction ∈ body, Run.IsPlain instruction
  behind_plain : ∀ instruction ∈ behind, Run.IsPlain instruction

namespace Program.HasLoop

variable {program : Program} {front body behind : List Instruction}

theorem holds (hloop : program.HasLoop front body behind) :
    program.Holds 0 front ∧ program.get? front.length = some .loopOpen ∧
      program.Holds (front.length + 1) body ∧
      program.get? (front.length + 1 + body.length) = some .loopClose ∧
      program.Holds (front.length + 1 + body.length + 1) behind := by
  have hwhole : program.Holds 0 program.instructions.toList := holds_of_drop rfl
  rw [hloop.instructions_eq, holds_append, Nat.zero_add] at hwhole
  obtain ⟨hfront, hopen, hrest⟩ := hwhole
  obtain ⟨hbody, hclose, hbehind⟩ := holds_append.mp hrest
  exact ⟨hfront, hopen, hbody, hclose, hbehind⟩

theorem size_eq (hloop : program.HasLoop front body behind) :
    program.size = front.length + (body.length + 2) + behind.length := by
  rw [size, ← Array.length_toList, hloop.instructions_eq]
  simp only [List.length_append, List.length_cons]
  omega

/-- A text with one `?` and a `\` behind it, and then only with characters that mean nothing. -/
theorem ofChars {front body behind : List Char}
    (hfront : front.all (decide <| Run.IsPlain <| .ofChar ·))
    (hbody : body.all (decide <| Run.IsPlain <| .ofChar ·))
    (hnops : ∀ character ∈ behind, Instruction.ofChar character = .nop character) :
    (Program.ofChars (front ++ '?' :: (body ++ '\\' :: behind))).HasLoop (front.map .ofChar)
      (body.map .ofChar) (behind.map .ofChar) where
  instructions_eq := by
    rw [Program.ofChars, List.toList_toArray, List.map_append, List.map_cons, List.map_append,
      List.map_cons]
    rfl
  front_plain := List.forall_mem_map.mpr fun character hmem =>
    of_decide_eq_true (List.all_eq_true.mp hfront character hmem)
  body_plain := List.forall_mem_map.mpr fun character hmem =>
    of_decide_eq_true (List.all_eq_true.mp hbody character hmem)
  behind_plain := List.forall_mem_map.mpr fun character hmem =>
    hnops character hmem ▸ Run.isPlain_nop character

/-- The loop is the only pair of brackets. -/
theorem pairs_eq (hloop : program.HasLoop front body behind) :
    program.loops.pairs = [(front.length, front.length + 1 + body.length)] := by
  have hbehind := LoopTable.pairsFrom_append_of_plain hloop.behind_plain
    (front.length + 1 + body.length + 1) [] []
  rw [List.append_nil] at hbehind
  rw [loops, hloop.instructions_eq, LoopTable.pairsFrom_append_of_plain hloop.front_plain,
    Nat.zero_add, LoopTable.pairsFrom, LoopTable.pairsFrom_append_of_plain hloop.body_plain,
    LoopTable.pairsFrom, hbehind]
  rfl

theorem get?_ne_leave (hloop : program.HasLoop front body behind) (position : Nat) :
    program.get? position ≠ some .leave := by
  intro hget
  rw [get?_eq_toList_getElem?, hloop.instructions_eq] at hget
  have hmem := List.mem_of_getElem? hget
  simp only [List.mem_append, List.mem_cons, reduceCtorEq, false_or] at hmem
  rcases hmem with hfront | hbody | hbehind
  · exact (hloop.front_plain _ hfront).2 rfl
  · exact (hloop.body_plain _ hbody).2 rfl
  · exact (hloop.behind_plain _ hbehind).2 rfl

end Program.HasLoop

/-- Characters that mean nothing do nothing. -/
theorem Workspace.performs_nops {characters : List Char}
    (hnops : ∀ character ∈ characters, Instruction.ofChar character = .nop character)
    (workspace : Workspace ι ο) : workspace.Performs (characters.map .ofChar) workspace := by
  induction characters with
  | nil => exact .nil workspace
  | cons character characters ih =>
      obtain ⟨hhead, htail⟩ := List.forall_mem_cons.mp hnops
      rw [List.map_cons, hhead]
      exact .cons (Run.isPlain_nop character) rfl (ih htail)

namespace Run

variable {program : Program} {workspace workspace' : Workspace ι ο}
variable {instructions front body behind : List Instruction}
variable {position depth steps count : Nat} {opened : List Nat}

/-! ## Rounds -/

/-- A run without a limit goes through instructions that stand where it is. -/
theorem after_executing (hholds : program.Holds position instructions)
    (hperforms : workspace.Performs instructions workspace') :
    (executing workspace position opened steps).after program instructions.length =
      executing workspace' (position + instructions.length) opened
        (steps + instructions.length) := by
  induction hperforms generalizing position steps with
  | nil => rfl
  | @cons before middle after instruction instructions hplain hexecute _ ih =>
      obtain ⟨hget, hrest⟩ := hholds
      rw [List.length_cons, Run.after, next_executing_plain hget hplain hexecute, ih hrest]
      simp only [Nat.add_assoc, Nat.add_comm 1]

/-- A run passes over instructions one by one. -/
theorem after_passing (hholds : program.Holds position instructions)
    (hplain : ∀ instruction ∈ instructions, IsPlain instruction) :
    (passing workspace position opened depth steps).after program instructions.length =
      passing workspace (position + instructions.length) opened depth
        (steps + instructions.length) := by
  induction instructions generalizing position steps with
  | nil => rfl
  | cons instruction instructions ih =>
      obtain ⟨hget, hrest⟩ := hholds
      obtain ⟨hhead, htail⟩ := List.forall_mem_cons.mp hplain
      rw [List.length_cons, Run.after, next_passing_plain hget hhead.1, ih hrest htail]
      simp only [Nat.add_assoc, Nat.add_comm 1]

section Loop

variable (hopen : program.get? position = some .loopOpen)
  (hbody : program.Holds (position + 1) body)
  (hclose : program.get? (position + 1 + body.length) = some .loopClose)

include hopen hbody hclose

/-- A round ends where it began. -/
theorem after_round {entered : Workspace ι ο} (htake : workspace.takeCondition = (true, entered))
    (hperforms : entered.Performs body workspace') :
    (executing workspace position opened steps).after program (body.length + 2) =
      executing workspace' position opened (steps + (body.length + 2)) := by
  have hlength : body.length + 2 = 1 + body.length + 1 := by omega
  rw [hlength, after_succ, after_add, Run.after, Run.after, next_executing_enter hopen htake,
    after_executing hbody hperforms, next_executing_back hclose]
  simp only [Nat.add_assoc]

/-- A loop that is not entered takes as many steps as a round. -/
theorem after_loop_passed (hplain : ∀ instruction ∈ body, IsPlain instruction)
    (htake : workspace.takeCondition = (false, workspace')) :
    (executing workspace position opened steps).after program (body.length + 2) =
      executing workspace' (position + (body.length + 2)) opened (steps + (body.length + 2)) := by
  have hlength : body.length + 2 = 1 + body.length + 1 := by omega
  rw [hlength, after_succ, after_add, Run.after, Run.after, next_executing_pass hopen htake,
    after_passing hbody hplain, next_passing_resume hclose]
  simp only [Nat.add_assoc]

/-- All rounds of a loop, and the last look at its condition. -/
theorem after_rounds (hplain : ∀ instruction ∈ body, IsPlain instruction)
    (hrounds : workspace.Rounds body count workspace') :
    (executing workspace position opened steps).after program ((count + 1) * (body.length + 2)) =
      executing workspace' (position + (body.length + 2)) opened
        (steps + (count + 1) * (body.length + 2)) := by
  induction hrounds generalizing steps with
  | done htake =>
      rw [Nat.zero_add, Nat.one_mul]
      exact after_loop_passed hopen hbody hclose hplain htake
  | @round count before entered middle after htake hperforms _ ih =>
      rw [Nat.succ_mul, Nat.add_comm (_ * _), after_add,
        after_round hopen hbody hclose htake hperforms, ih, Nat.add_assoc]

end Loop

/-! ## Programs with one loop -/

theorem cost_loop (front body : List Instruction) :
    BackJump.cost ⟨front.length + 1 + body.length, front.length⟩ = body.length + 2 := by
  rw [BackJump.cost]
  dsimp only
  omega

/-- All ways back are those of the loop. -/
theorem backJumps_eq_replicate (hloop : program.HasLoop front body behind) (machine : Machine)
    (input : ι) (output : ο) (total : Nat) :
    (machine.start input output).backJumps program total =
      List.replicate ((machine.start input output).backJumps program total).length
        ⟨front.length + 1 + body.length, front.length⟩ := by
  rw [List.eq_replicate_iff]
  refine ⟨rfl, fun jump hmem => ?_⟩
  have hpair := mem_pairs_of_mem_backJumps program machine input output total jump hmem
  rw [hloop.pairs_eq, List.mem_singleton] at hpair
  obtain ⟨hstart, hclose⟩ := Prod.mk.inj hpair
  rw [← hclose, ← hstart]

/-- A run has come to the end of a program with no loop open and without passing over instructions,
after it has gone round so many times, with the same way back each time. -/
structure EndsAfterRounds (program : Program) (run : Run ι ο) (jump : BackJump) (rounds : Nat)
    (last : Run ι ο) : Prop where
  ends : run.Ends program last
  status_eq : last.status = .halted
  opened_eq : last.control.opened = []
  mode_eq : last.control.mode = .running
  steps_eq : last.control.steps = rounds * jump.cost + program.size
  backJumps_eq : ∀ count, (run.after program count).status ≠ .working →
    run.backJumps program count = List.replicate rounds jump
  entries_eq : ∀ count, (run.after program count).status ≠ .working →
    run.entries program count = rounds

section OneLoop

variable {machine : Machine} {input : ι} {output : ο} (hfree : machine.limit = none)
  (hloop : program.HasLoop front body behind) {entered left after : Workspace ι ο}
  (hfront : (machine.start input output).workspace.Performs front entered)
  (hrounds : entered.Rounds body count left) (hbehind : left.Performs behind after)

omit [Source ι] [Sink ο] in
include hfree in
theorem start_eq_executing : machine.start input output =
    executing (machine.start input output).workspace 0 [] 0 :=
  congrArg (Run.mk (machine.start input output).workspace {} · .working) hfree

include hfree hloop hfront hrounds hbehind

/-- The steps are one for each instruction, and those of the rounds. -/
theorem ends_of_rounds :
    (machine.start input output).Ends program
      { workspace := after
        control := { position := program.size, steps := count * (body.length + 2) + program.size }
        limit := none
        status := .halted } := by
  obtain ⟨hholds, hopen, hbody, hclose, hrest⟩ := hloop.holds
  have hposition : front.length + (body.length + 2) = front.length + 1 + body.length + 1 := by
    omega
  have hsteps : front.length + (count + 1) * (body.length + 2) + behind.length =
      count * (body.length + 2) + program.size := by
    rw [hloop.size_eq, Nat.succ_mul]
    omega
  have hend : program.get? program.size = none := Program.get?_eq_none_iff.mpr (Nat.le_refl _)
  have hwhole : (machine.start input output).after program
      (front.length + (count + 1) * (body.length + 2) + behind.length) =
        executing after program.size [] (count * (body.length + 2) + program.size) := by
    rw [start_eq_executing hfree, after_add, after_add, after_executing hholds hfront, Nat.zero_add,
      after_rounds hopen hbody hclose hloop.body_plain hrounds, hposition,
      after_executing hrest hbehind, hsteps, ← hposition, ← hloop.size_eq]
  refine ⟨nofun, count * (body.length + 2) + program.size + 1, ?_⟩
  rw [after_succ, ← hsteps, hwhole, next_of_end rfl hend, hsteps]
  rfl

/-- In the end the run has gone back once in each round, and has entered the loop as often. -/
theorem backJumps_of_rounds {total : Nat}
    (hended : ((machine.start input output).after program total).status ≠ .working) :
    (machine.start input output).backJumps program total =
        List.replicate count ⟨front.length + 1 + body.length, front.length⟩ ∧
      (machine.start input output).entries program total = count := by
  have hends := ends_of_rounds hfree hloop hfront hrounds hbehind
  have hlast := (ends_of_after hended).unique hends
  have hjumps := backJumps_eq_replicate hloop machine input output total
  have hsteps := steps_after_eq program machine input output total
  have hentries := entries_eq program machine input output total hloop.get?_ne_leave
  -- the steps of the ways back are those that are more than one for each instruction
  have hcount : ((machine.start input output).backJumps program total).length = count := by
    rw [hlast, hjumps, BackJump.totalCost_replicate, cost_loop] at hsteps
    have hunfinished : Status.halted.unfinished = 0 := rfl
    have hequal : ((machine.start input output).backJumps program total).length *
        (body.length + 2) = count * (body.length + 2) := by
      dsimp only at hsteps
      omega
    exact Nat.eq_of_mul_eq_mul_right (Nat.succ_pos _) hequal
  rw [hlast, hcount] at hentries
  rw [hcount] at hjumps
  exact ⟨hjumps, hentries.trans (Nat.zero_add _)⟩

/-- **A program with one loop ends with what its parts have done**, after the rounds of its loop. -/
theorem exists_endsAfterRounds : ∃ last,
    (machine.start input output).EndsAfterRounds program
      ⟨front.length + 1 + body.length, front.length⟩ count last ∧ last.workspace = after :=
  ⟨_, {
    ends := ends_of_rounds hfree hloop hfront hrounds hbehind
    status_eq := rfl
    opened_eq := rfl
    mode_eq := rfl
    steps_eq := by rw [cost_loop]
    backJumps_eq := fun _ hended =>
      (backJumps_of_rounds hfree hloop hfront hrounds hbehind hended).1
    entries_eq := fun _ hended =>
      (backJumps_of_rounds hfree hloop hfront hrounds hbehind hended).2 }, rfl⟩

end OneLoop

end Run

end LetterMachine
