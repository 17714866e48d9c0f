import LetterMachine.Proofs.Blocks
import LetterMachine.Proofs.Transitions

/-!
# Structured execution

A program without issues can be executed as a tree.  There is no position to jump to and no stack:
a loop looks at its condition and executes its body, again and again, and `!` leaves the innermost
loop around it.  The run that jumps and searches through the text does the same work and comes to
the same end.
-/

namespace LetterMachine

/-- How the execution of a block comes to an end. -/
inductive Ending where
  | finished
  /-- The innermost loop around the block has been left. -/
  | left
  | failed (failure : Failure)
  deriving DecidableEq, Repr

/-- How a program ends if its tree ends so.  Outside of all loops, `!` ends the program. -/
def Ending.status : Ending → Status
  | .finished => .halted
  | .left => .halted
  | .failed failure => .failed failure

variable {ι ο : Type} [Source ι] [Sink ο]

/-- Executes a body as long as the condition before it is true, if that comes to an end within
`rounds` conditions.  It ends by itself, or with the failure of its body. -/
def repeatBody (body : Workspace ι ο → Option (Workspace ι ο × Ending)) :
    Nat → Workspace ι ο → Option (Workspace ι ο × Option Failure)
  | 0, _ => none
  | rounds + 1, workspace =>
    match workspace.takeCondition with
    | (false, workspace) => some (workspace, none)
    | (true, workspace) =>
      match body workspace with
      | some (workspace, .finished) => repeatBody body rounds workspace
      | some (workspace, .left) => some (workspace, none)
      | some (workspace, .failed failure) => some (workspace, some failure)
      | none => none

/-- Executes a block that stands at a position, if no loop looks at its condition more than `rounds`
times before it comes to its end. -/
def Block.run (rounds : Nat) :
    Block → Nat → Workspace ι ο → Option (Workspace ι ο × Ending)
  | .done, _, workspace => some (workspace, .finished)
  | .plain instruction _ rest, position, workspace =>
    if instruction = .leave then
      some (workspace, .left)
    else
      match workspace.execute instruction with
      | (workspace, none) => rest.run rounds (position + 1) workspace
      | (workspace, some mishap) => some (workspace, .failed (mishap.failureAt position))
  | .loop body rest, position, workspace =>
    match repeatBody (body.run rounds (position + 1)) rounds workspace with
    | some (workspace, none) => rest.run rounds (position + body.size + 2) workspace
    | some (workspace, some failure) => some (workspace, .failed failure)
    | none => none

/-- The execution of a tree comes to its end with a status, and leaves a workspace behind. -/
def Block.EndsWith (block : Block) (start workspace : Workspace ι ο) (status : Status) : Prop :=
  ∃ rounds ending, block.run rounds 0 start = some (workspace, ending) ∧ ending.status = status

namespace Program

/-- The instructions stand in a program from a position on. -/
def Holds (program : Program) (position : Nat) : List Instruction → Prop
  | [] => True
  | instruction :: rest =>
    program.get? position = some instruction ∧ program.Holds (position + 1) rest

variable {program : Program}

theorem holds_append {position : Nat} {first second : List Instruction} :
    program.Holds position (first ++ second) ↔
      program.Holds position first ∧ program.Holds (position + first.length) second := by
  induction first generalizing position with
  | nil => simp [Holds]
  | cons instruction rest ih =>
      rw [List.cons_append, Holds, Holds, ih, List.length_cons, and_assoc, Nat.add_assoc,
        Nat.add_comm 1]

theorem holds_of_drop {position : Nat} {rest : List Instruction}
    (hrest : program.instructions.toList.drop position = rest) : program.Holds position rest := by
  induction rest generalizing position with
  | nil => trivial
  | cons instruction rest ih =>
      obtain ⟨hget, hdrop⟩ := get?_and_drop_of_drop_eq_cons hrest
      exact ⟨hget, ih hdrop⟩

theorem holds_loop {position : Nat} {body rest : Block}
    (hholds : program.Holds position (Block.loop body rest).instructions) :
    program.get? position = some .loopOpen ∧
      program.Holds (position + 1) body.instructions ∧
      program.get? (position + 1 + body.size) = some .loopClose ∧
      program.Holds (position + body.size + 2) rest.instructions := by
  obtain ⟨hopen, hbody⟩ := hholds
  obtain ⟨hbody, hclose, hrest⟩ := holds_append.mp hbody
  rw [Block.length_instructions] at hclose hrest
  have hposition : position + 1 + body.size + 1 = position + body.size + 2 := by omega
  rw [hposition] at hrest
  exact ⟨hopen, hbody, hclose, hrest⟩

end Program

namespace Run

variable {program : Program}

/-- A run without limit that is about to execute an instruction. -/
def executing (workspace : Workspace ι ο) (position : Nat) (opened : List Nat) (steps : Nat) :
    Run ι ο where
  workspace := workspace
  control := ⟨position, opened, opened.length, .running, steps⟩
  limit := none
  status := .working

/-- A run without limit that is about to pass over an instruction. -/
def passing (workspace : Workspace ι ο) (position : Nat) (opened : List Nat) (depth steps : Nat) :
    Run ι ο where
  workspace := workspace
  control := ⟨position, opened, depth, .skipping, steps⟩
  limit := none
  status := .working

variable {workspace workspace' : Workspace ι ο} {position : Nat} {opened : List Nat}
variable {depth steps : Nat}

omit [Source ι] [Sink ο] in
theorem ready_executing {instruction : Instruction}
    (hget : program.get? position = some instruction) :
    (executing workspace position opened steps).Ready program instruction :=
  ⟨rfl, hget, rfl⟩

omit [Source ι] [Sink ο] in
theorem ready_passing {instruction : Instruction}
    (hget : program.get? position = some instruction) :
    (passing workspace position opened depth steps).Ready program instruction :=
  ⟨rfl, hget, rfl⟩

theorem next_executing_enter (hget : program.get? position = some .loopOpen)
    (htake : workspace.takeCondition = (true, workspace')) :
    ((executing workspace position opened steps).next program).1 =
      executing workspace' (position + 1) (position :: opened) (steps + 1) := by
  rw [next_of_ready (ready_executing hget)]
  simp only [step, execute, openLoop, executing, htake]
  rfl

theorem next_executing_pass (hget : program.get? position = some .loopOpen)
    (htake : workspace.takeCondition = (false, workspace')) :
    ((executing workspace position opened steps).next program).1 =
      passing workspace' (position + 1) opened opened.length (steps + 1) := by
  rw [next_of_ready (ready_executing hget)]
  simp only [step, execute, openLoop, executing, htake]
  rfl

theorem next_executing_back {start : Nat} (hget : program.get? position = some .loopClose) :
    ((executing workspace position (start :: opened) steps).next program).1 =
      executing workspace start opened (steps + 1) := by
  rw [next_of_ready (ready_executing hget)]
  rfl

theorem next_executing_leave (hget : program.get? position = some .leave) :
    ((executing workspace position opened steps).next program).1 =
      passing workspace (position + 1) opened.tail opened.tail.length (steps + 1) := by
  rw [next_of_ready (ready_executing hget)]
  cases opened <;> rfl

theorem next_executing_plain {instruction : Instruction}
    (hget : program.get? position = some instruction) (hplain : IsPlain instruction)
    (hexecute : workspace.execute instruction = (workspace', none)) :
    ((executing workspace position opened steps).next program).1 =
      executing workspace' (position + 1) opened (steps + 1) := by
  rw [next_of_ready (ready_executing hget)]
  simp only [step, execute_of_isPlain hplain, executePlain, executing, hexecute]
  rfl

/-- A mishap ends the run at the instruction that it came with. -/
theorem next_executing_mishap {instruction : Instruction} {mishap : Mishap}
    (hget : program.get? position = some instruction) (hplain : IsPlain instruction)
    (hexecute : workspace.execute instruction = (workspace', some mishap)) :
    let next := ((executing workspace position opened steps).next program).1
    next.workspace = workspace' ∧ next.status = .failed (mishap.failureAt position) := by
  rw [next_of_ready (ready_executing hget)]
  simp only [step, execute_of_isPlain hplain, executePlain, executing, hexecute]
  exact ⟨rfl, rfl⟩

theorem next_passing_plain {instruction : Instruction}
    (hget : program.get? position = some instruction)
    (hbracket : instruction.isLoopBracket = false) :
    ((passing workspace position opened depth steps).next program).1 =
      passing workspace (position + 1) opened depth (steps + 1) := by
  rw [next_of_ready (ready_passing hget)]
  cases instruction <;> first | rfl | cases hbracket

theorem next_passing_open (hget : program.get? position = some .loopOpen) :
    ((passing workspace position opened depth steps).next program).1 =
      passing workspace (position + 1) opened (depth + 1) (steps + 1) := by
  rw [next_of_ready (ready_passing hget)]
  rfl

theorem next_passing_close (hget : program.get? position = some .loopClose)
    (hdepth : opened.length ≤ depth) :
    ((passing workspace position opened (depth + 1) steps).next program).1 =
      passing workspace (position + 1) opened depth (steps + 1) := by
  have hinner : ¬depth + 1 = opened.length := by omega
  have hskip : (Control.mk position opened (depth + 1) .skipping (steps + 1)).skip .loopClose =
      ⟨position + 1, opened, depth, .skipping, steps + 1⟩ := if_neg hinner
  rw [next_of_ready (ready_passing hget)]
  exact congrArg (fun control => Run.mk workspace control none .working) hskip

/-- The loop that was left or not entered ends here. -/
theorem next_passing_resume (hget : program.get? position = some .loopClose) :
    ((passing workspace position opened opened.length steps).next program).1 =
      executing workspace (position + 1) opened (steps + 1) := by
  have hskip : (Control.mk position opened opened.length .skipping (steps + 1)).skip .loopClose =
      ⟨position + 1, opened, opened.length, .running, steps + 1⟩ := if_pos rfl
  rw [next_of_ready (ready_passing hget)]
  exact congrArg (fun control => Run.mk workspace control none .working) hskip

/-- Passing over a block changes nothing but the position. -/
theorem passing_block (block : Block) (hholds : program.Holds position block.instructions)
    (hdepth : opened.length ≤ depth) :
    ∃ steps', LeadsTo program (passing workspace position opened depth steps)
      (passing workspace (position + block.size) opened depth steps') := by
  induction block generalizing position depth steps with
  | done => exact ⟨steps, .refl _⟩
  | plain instruction hbracket rest ih =>
      obtain ⟨hget, hrest⟩ := hholds
      obtain ⟨steps', hleads⟩ := ih hrest hdepth
      have hposition : position + 1 + rest.size = position + (rest.size + 1) := by omega
      rw [hposition] at hleads
      exact ⟨steps', .of_next (next_passing_plain hget hbracket) hleads⟩
  | loop body rest ihbody ihrest =>
      obtain ⟨hopen, hbody, hclose, hrest⟩ := Program.holds_loop hholds
      -- the body is passed over one level deeper, so its end is not the end that is looked for
      obtain ⟨inside, hinside⟩ := ihbody hbody (Nat.le_succ_of_le hdepth)
      obtain ⟨steps', hafter⟩ := ihrest hrest hdepth
      have hposition : position + body.size + 2 + rest.size =
          position + (body.size + rest.size + 2) := by omega
      have hbehind : position + 1 + body.size + 1 = position + body.size + 2 := by omega
      rw [hposition, ← hbehind] at hafter
      exact ⟨steps', .of_next (next_passing_open hopen)
        (hinside.trans (.of_next (next_passing_close hclose hdepth) hafter))⟩

/-- The loop is at its end once its body has been passed over. -/
theorem passing_body {body : Block} (hbody : program.Holds position body.instructions)
    (hclose : program.get? (position + body.size) = some .loopClose) :
    ∃ steps', LeadsTo program (passing workspace position opened opened.length steps)
      (executing workspace (position + body.size + 1) opened steps') := by
  obtain ⟨passed, hpassed⟩ : ∃ passed, LeadsTo program
      (passing workspace position opened opened.length steps)
      (passing workspace (position + body.size) opened opened.length passed) :=
    passing_block body hbody le_rfl
  exact ⟨passed + 1, hpassed.trans (.of_next (next_passing_resume hclose) (.refl _))⟩

/-! ## The run does what the tree does -/

/-- A run comes to the position behind a block in the way that the block ends. -/
def Arrives (program : Program) (run : Run ι ο) (position : Nat) (opened : List Nat)
    (workspace : Workspace ι ο) : Ending → Prop
  | .finished => ∃ steps, LeadsTo program run (executing workspace position opened steps)
  | .left =>
    ∃ steps, LeadsTo program run
      (passing workspace position opened.tail opened.tail.length steps)
  | .failed failure =>
    ∃ last, LeadsTo program run last ∧ last.workspace = workspace ∧ last.status = .failed failure

theorem Arrives.of_leadsTo {run middle : Run ι ο} {ending : Ending}
    (hleads : LeadsTo program run middle)
    (harrives : Arrives program middle position opened workspace ending) :
    Arrives program run position opened workspace ending := by
  cases ending with
  | finished =>
      obtain ⟨steps, hmiddle⟩ := harrives
      exact ⟨steps, hleads.trans hmiddle⟩
  | left =>
      obtain ⟨steps, hmiddle⟩ := harrives
      exact ⟨steps, hleads.trans hmiddle⟩
  | failed failure =>
      obtain ⟨last, hmiddle, hlast⟩ := harrives
      exact ⟨last, hleads.trans hmiddle, hlast⟩

theorem Arrives.of_next {run middle : Run ι ο} {ending : Ending}
    (hnext : (run.next program).1 = middle)
    (harrives : Arrives program middle position opened workspace ending) :
    Arrives program run position opened workspace ending :=
  harrives.of_leadsTo ⟨1, hnext⟩

section Body

variable {body : Block} {rounds limit : Nat}

/-- In every round the run comes back to the start of the loop, or ends the loop. -/
theorem arrives_of_repeatBody (hopen : program.get? position = some .loopOpen)
    (hbody : program.Holds (position + 1) body.instructions)
    (hclose : program.get? (position + 1 + body.size) = some .loopClose)
    (harrives : ∀ {workspace workspace' : Workspace ι ο} {ending : Ending} {steps : Nat},
      body.run limit (position + 1) workspace = some (workspace', ending) →
        Arrives program (executing workspace (position + 1) (position :: opened) steps)
          (position + 1 + body.size) (position :: opened) workspace' ending)
    {failure? : Option Failure}
    (hrepeat : repeatBody (body.run limit (position + 1)) rounds workspace =
      some (workspace', failure?)) :
    Arrives program (executing workspace position opened steps) (position + 1 + body.size + 1)
      opened workspace' (failure?.elim .finished .failed) := by
  induction rounds generalizing workspace steps with
  | zero => cases hrepeat
  | succ rounds ih =>
      rw [repeatBody] at hrepeat
      split at hrepeat
      · rename_i htake
        obtain ⟨rfl, rfl⟩ := Prod.mk.inj (Option.some.inj hrepeat)
        apply Arrives.of_next (next_executing_pass hopen htake)
        exact passing_body hbody hclose
      · rename_i htake
        apply Arrives.of_next (next_executing_enter hopen htake)
        split at hrepeat
        · rename_i hrun
          obtain ⟨behind, hleads⟩ := harrives hrun
          apply Arrives.of_leadsTo hleads
          exact .of_next (next_executing_back hclose) (ih hrepeat)
        · rename_i hrun
          obtain ⟨rfl, rfl⟩ := Prod.mk.inj (Option.some.inj hrepeat)
          obtain ⟨behind, hleads⟩ := harrives hrun
          have hresumed := hleads.trans (.of_next (next_passing_resume hclose) (.refl _))
          exact ⟨_, hresumed⟩
        · rename_i hrun
          obtain ⟨rfl, rfl⟩ := Prod.mk.inj (Option.some.inj hrepeat)
          exact harrives hrun
        · cases hrepeat

/-- If the execution of a tree comes to an end, the run does as well, in the same way. -/
theorem arrives_of_run (block : Block) (hholds : program.Holds position block.instructions)
    {ending : Ending} (hrun : block.run rounds position workspace = some (workspace', ending)) :
    Arrives program (executing workspace position opened steps) (position + block.size) opened
      workspace' ending := by
  induction block generalizing position workspace workspace' opened steps ending with
  | done =>
      obtain ⟨rfl, rfl⟩ := Prod.mk.inj (Option.some.inj hrun)
      exact ⟨steps, .refl _⟩
  | plain instruction hbracket rest ih =>
      obtain ⟨hget, hrest⟩ := hholds
      have hposition : position + 1 + rest.size = position + (rest.size + 1) := by omega
      rw [Block.run] at hrun
      by_cases hleave : instruction = .leave
      · rw [if_pos hleave] at hrun
        obtain ⟨rfl, rfl⟩ := Prod.mk.inj (Option.some.inj hrun)
        apply Arrives.of_next (next_executing_leave (hleave ▸ hget))
        rw [Block.size, ← hposition]
        exact passing_block rest hrest le_rfl
      · have hplain : IsPlain instruction := ⟨hbracket, hleave⟩
        rw [if_neg hleave] at hrun
        split at hrun
        · rename_i hexecute
          apply Arrives.of_next (next_executing_plain hget hplain hexecute)
          rw [Block.size, ← hposition]
          exact ih hrest hrun
        · rename_i hexecute
          obtain ⟨rfl, rfl⟩ := Prod.mk.inj (Option.some.inj hrun)
          exact ⟨_, .of_next rfl (.refl _), next_executing_mishap hget hplain hexecute⟩
  | loop body rest ihbody ihrest =>
      obtain ⟨hopen, hbody, hclose, hrest⟩ := Program.holds_loop hholds
      have hbehind : position + 1 + body.size + 1 = position + body.size + 2 := by omega
      have hposition : position + body.size + 2 + rest.size =
          position + (body.size + rest.size + 2) := by omega
      rw [Block.run] at hrun
      split at hrun
      · rename_i hrepeat
        obtain ⟨behind, hleads⟩ := arrives_of_repeatBody hopen hbody hclose (ihbody hbody) hrepeat
        rw [hbehind] at hleads
        apply Arrives.of_leadsTo hleads
        rw [Block.size, ← hposition]
        exact ihrest hrest hrun
      · rename_i hrepeat
        obtain ⟨rfl, rfl⟩ := Prod.mk.inj (Option.some.inj hrun)
        exact arrives_of_repeatBody hopen hbody hclose (ihbody hbody) hrepeat
      · cases hrun

/-- A loop whose run ends has come to its end before its rounds are used up. -/
theorem isSome_repeatBody (hopen : program.get? position = some .loopOpen)
    (hbody : program.Holds (position + 1) body.instructions)
    (hclose : program.get? (position + 1 + body.size) = some .loopClose)
    (hsome : ∀ {workspace : Workspace ι ο} {steps count : Nat}, count ≤ limit →
      ((executing workspace (position + 1) (position :: opened) steps).after program count).status
        ≠ .working → (body.run limit (position + 1) workspace).isSome)
    {count : Nat} (hcount : count ≤ rounds) (hlimit : count ≤ limit)
    (hended : ((executing workspace position opened steps).after program count).status ≠ .working) :
    (repeatBody (body.run limit (position + 1)) rounds workspace).isSome := by
  induction rounds generalizing workspace steps count with
  | zero =>
      obtain rfl := Nat.le_zero.mp hcount
      exact absurd rfl hended
  | succ rounds ih =>
      rw [repeatBody]
      split
      · rfl
      · rename_i htake
        cases count with
        | zero => exact absurd rfl hended
        | succ count =>
            -- every round costs the run a transition, so the rounds last as long as the run does
            rw [after, next_executing_enter hopen htake] at hended
            have hrun := hsome (Nat.le_of_succ_le hlimit) hended
            split
            · rename_i hrun
              obtain ⟨behind, hleads⟩ := arrives_of_run body hbody hrun
              obtain ⟨inside, hinside, hended⟩ := exists_ended_of_leadsTo hleads hended
              obtain ⟨left, hleft, hended⟩ :=
                exists_ended_of_leadsTo ⟨1, next_executing_back hclose⟩ hended
              exact ih (by omega) (by omega) hended
            · rfl
            · rfl
            · rename_i hnone
              rw [hnone] at hrun
              exact hrun

/-- If a run comes to an end in time, the execution of its tree does as well. -/
theorem isSome_run (block : Block) (hholds : program.Holds position block.instructions)
    {count : Nat} (hcount : count ≤ rounds)
    (hended : ((executing workspace position opened steps).after program count).status ≠ .working) :
    (block.run rounds position workspace).isSome := by
  induction block generalizing position workspace opened steps count with
  | done => rfl
  | plain instruction hbracket rest ih =>
      obtain ⟨hget, hrest⟩ := hholds
      rw [Block.run]
      by_cases hleave : instruction = .leave
      · rw [if_pos hleave]
        rfl
      · rw [if_neg hleave]
        split
        · rename_i hexecute
          cases count with
          | zero => exact absurd rfl hended
          | succ count =>
              rw [after, next_executing_plain hget ⟨hbracket, hleave⟩ hexecute] at hended
              exact ih hrest (Nat.le_of_succ_le hcount) hended
        · rfl
  | loop body rest ihbody ihrest =>
      obtain ⟨hopen, hbody, hclose, hrest⟩ := Program.holds_loop hholds
      have hbehind : position + 1 + body.size + 1 = position + body.size + 2 := by omega
      have hrepeat := isSome_repeatBody hopen hbody hclose (ihbody hbody) hcount hcount hended
      rw [Block.run]
      split
      · rename_i hrounds
        obtain ⟨behind, hleads⟩ :=
          arrives_of_repeatBody hopen hbody hclose (arrives_of_run body hbody) hrounds
        rw [hbehind] at hleads
        obtain ⟨left, hleft, hended⟩ := exists_ended_of_leadsTo hleads hended
        exact ihrest hrest (hleft.trans hcount) hended
      · rfl
      · rename_i hnone
        rw [hnone] at hrepeat
        exact hrepeat

/-- At the end of the program, a run that has arrived ends. -/
theorem Arrives.endsWith {run : Run ι ο} {ending : Ending} (hend : program.get? position = none)
    (harrives : Arrives program run position [] workspace ending) :
    run.EndsWith program workspace ending.status := by
  cases ending with
  | finished =>
      obtain ⟨steps, hleads⟩ := harrives
      exact .of_leadsTo (endsWith_of_end rfl hend) hleads
  | left =>
      obtain ⟨steps, hleads⟩ := harrives
      exact .of_leadsTo (endsWith_of_end rfl hend) hleads
  | failed failure =>
      obtain ⟨last, hleads, hworkspace, hstatus⟩ := harrives
      exact .of_leadsTo ⟨nofun, 0, hworkspace, hstatus⟩ hleads

/-- A run comes to the end that the tree of its program comes to, and to no other. -/
theorem endsWith_iff_of_holds {block : Block} (hholds : program.Holds 0 block.instructions)
    (hend : program.get? block.size = none) (start : Workspace ι ο) {status : Status} :
    (executing start 0 [] 0).EndsWith program workspace status ↔
      block.EndsWith start workspace status := by
  have hends : ∀ {rounds ending} {workspace : Workspace ι ο},
      block.run rounds 0 start = some (workspace, ending) →
        (executing start 0 [] 0).EndsWith program workspace ending.status := by
    intro rounds ending workspace hrun
    apply Arrives.endsWith hend
    rw [← Nat.zero_add block.size]
    exact arrives_of_run block hholds hrun
  constructor
  · intro hrun
    have ⟨hstatus, count, _, hcount⟩ := hrun
    have hended : ((executing start 0 [] 0).after program count).status ≠ .working :=
      hcount ▸ hstatus
    have hsome := isSome_run block hholds le_rfl hended
    obtain ⟨⟨last, ending⟩, htree⟩ := Option.isSome_iff_exists.mp hsome
    obtain ⟨rfl, rfl⟩ := hrun.unique (hends htree)
    exact ⟨count, ending, htree, rfl⟩
  · intro htree
    obtain ⟨rounds, ending, htree, rfl⟩ := htree
    exact hends htree

end Body

/-- **A program without issues is executed as its tree.**  The program is written by one tree only,
the one that is read off it.  From the same registers, the same active register, the same input and
the same output, and without a limit of steps, the run that jumps and searches comes to an end
exactly if the execution of the tree does, with the same work done, and it halts or fails alike. -/
theorem endsWith_iff_tree (program : Program) (hissues : program.issues = []) :
    ∃ block, program.block? = some block ∧
      (∀ other : Block, other.instructions = program.instructions.toList ↔ other = block) ∧
      ∀ (bank : Bank) (active : Letter) (input : ι) (output : ο) (workspace : Workspace ι ο)
        (status : Status),
        (Machine.start { bank, active } input output).EndsWith program workspace status ↔
          block.EndsWith ⟨bank, active, input, output⟩ workspace status := by
  obtain ⟨block, hblock, hinstructions⟩ := Program.exists_block hissues
  have hholds : program.Holds 0 block.instructions := by
    rw [hinstructions]
    exact Program.holds_of_drop rfl
  have hend : program.get? block.size = none := by
    rw [Program.get?_eq_none_iff, ← Block.length_instructions, hinstructions]
    exact le_rfl
  refine ⟨block, hblock, ?_, ?_⟩
  · intro other
    rw [← hinstructions]
    exact Block.instructions_injective.eq_iff
  · intro bank active input output workspace status
    exact endsWith_iff_of_holds hholds hend ⟨bank, active, input, output⟩

/-- The inner loop is left, and the outer one goes on behind it. -/
theorem nested_leave_endsWith :
    let program := Program.ofChars ['1', '?', '7', '2', '?', '!', '\\', '#', '\\']
    let start : Run ByteStream OutputBuffer := Machine.start {} ⟨[], false⟩ ⟨none, []⟩
    program.issues = [] ∧
      ∃ workspace, start.EndsWith program workspace .halted ∧
        workspace.output.written = [0x37] := by
  intro program start
  have hissues : program.issues = [] := by decide
  obtain ⟨block, hblock, -, hends⟩ :=
    endsWith_iff_tree (ι := ByteStream) (ο := OutputBuffer) program hissues
  obtain rfl : _ = block := Option.some.inj hblock
  refine ⟨hissues, _, (hends ..).mpr ⟨2, .finished, rfl, rfl⟩, ?_⟩
  decide

end Run

end LetterMachine
