import LetterMachine.Proofs.Readings
import LetterMachine.Proofs.Transitions

/-!
# Images of runs

What instructions work on can be carried over to other registers, another source and another sink.
Each part of it is mapped for itself, and the letters of the registers are mapped along.  An
instruction, with its letter mapped, does in the image what it does in the original, if the
registers that it works on are found under their new letters, and if the source answers and the sink
takes what the instruction has for them as they do in the original.  `Run.next_imaged` and
`Run.after_imaged` say so of single transitions and of whole runs.
-/

namespace LetterMachine

namespace Instruction

/-- The instruction with its letter mapped, if it has one. -/
def rename (letters : Letter → Letter) : Instruction → Instruction
  | .select letter => .select (letters letter)
  | .transfer letter => .transfer (letters letter)
  | instruction => instruction

theorem rename_id (instruction : Instruction) : instruction.rename id = instruction := by
  cases instruction <;> rfl

end Instruction

/-- A map of banks takes a register from one letter to another: its contents are found there, and
putting something there comes to the same before the map and after it. -/
structure Bank.Takes (map : Bank → Bank) (letter target : Letter) : Prop where
  get_eq : ∀ bank, (map bank).get target = bank.get letter
  set_eq : ∀ bank register, (map bank).set target register = map (bank.set letter register)

theorem Bank.transfer?_map {map : Bank → Bank} {source target source' target' : Letter}
    (hsource : Takes map source source') (htarget : Takes map target target') (bank : Bank) :
    (map bank).transfer? source' target' = (bank.transfer? source target).map map := by
  simp only [transfer?, hsource.get_eq]
  cases (bank.get source).popFront? with
  | none => rfl
  | some taken =>
      simp only [Option.map_some, push, hsource.set_eq, htarget.get_eq, htarget.set_eq]

namespace Workspace

variable {ι κ ο π : Type}

/-- What an instruction asks of the source. -/
def reading? (workspace : Workspace ι ο) : Instruction → Option Reading
  | .read .number => some .token
  | .read .byte => some .byte
  | .read .text => workspace.contents.popFront?.map fun (delimiter, _) =>
      if delimiter.toInt64 = 0 then .token else .text delimiter.toByte
  | _ => none

/-- What an instruction writes to the sink. -/
def printing? (workspace : Workspace ι ο) : Instruction → Option (List UInt8)
  | .print form => workspace.contents.popFront?.map fun (value, _) => printed form value
  | _ => none

/-- A map of what instructions work on, part by part. -/
structure Image (ι κ ο π : Type) where
  bank : Bank → Bank
  letter : Letter → Letter
  input : ι → κ
  output : ο → π

namespace Image

def apply (image : Image ι κ ο π) (workspace : Workspace ι ο) : Workspace κ π where
  bank := image.bank workspace.bank
  active := image.letter workspace.active
  input := image.input workspace.input
  output := image.output workspace.output

section Parts

variable (image : Image ι κ ο π) (workspace : Workspace ι ο)

@[simp]
theorem bank_apply : (image.apply workspace).bank = image.bank workspace.bank := rfl

@[simp]
theorem active_apply : (image.apply workspace).active = image.letter workspace.active := rfl

@[simp]
theorem input_apply : (image.apply workspace).input = image.input workspace.input := rfl

@[simp]
theorem output_apply : (image.apply workspace).output = image.output workspace.output := rfl

end Parts

/-- The register is found under the letter that its own letter is mapped to. -/
def Finds (image : Image ι κ ο π) (letter : Letter) : Prop :=
  Bank.Takes image.bank letter (image.letter letter)

variable [Source ι] [Source κ] [Sink ο] [Sink π]

/-- An image keeps all that an instruction comes in touch with: the registers that it works on, and
what the source and the sink do for it. -/
structure Keeps (image : Image ι κ ο π) (workspace : Workspace ι ο)
    (instruction : Instruction) : Prop where
  active : image.Finds workspace.active
  target : ∀ target, instruction = .transfer target → image.Finds target
  ask : ∀ reading ∈ workspace.reading? instruction,
    reading.ask (image.input workspace.input) = (reading.ask workspace.input).map id image.input
  write : ∀ bytes ∈ workspace.printing? instruction,
    Sink.write bytes (image.output workspace.output) =
      (Sink.write bytes workspace.output).map id image.output

variable {image : Image ι κ ο π} {workspace : Workspace ι ο}

section Registers

omit [Source ι] [Source κ] [Sink ο] [Sink π]

variable (workspace) (hactive : image.Finds workspace.active)

include hactive

theorem contents_apply : (image.apply workspace).contents = workspace.contents :=
  hactive.get_eq workspace.bank

theorem put_apply (register : Register) :
    (image.apply workspace).put register = image.apply (workspace.put register) :=
  congrArg (Workspace.mk · _ _ _) (hactive.set_eq workspace.bank register)

theorem push_apply (value : Value) :
    (image.apply workspace).push value = image.apply (workspace.push value) := by
  rw [push, contents_apply _ hactive, put_apply _ hactive, push]

theorem transfer_apply {target : Letter} (htarget : image.Finds target) :
    (image.apply workspace).transfer (image.letter target) =
      image.apply (workspace.transfer target) := by
  have htransfer := Bank.transfer?_map hactive htarget workspace.bank
  simp only [transfer]
  cases hbank : workspace.bank.transfer? workspace.active target with
  | none =>
      rw [hbank] at htransfer
      simp only [apply, htransfer, Option.map_none]
  | some bank =>
      rw [hbank] at htransfer
      simp only [apply, htransfer, Option.map_some]

theorem shuffle_apply (kind : Shuffle) :
    (image.apply workspace).shuffle kind = image.apply (workspace.shuffle kind) := by
  simp only [shuffle, contents_apply workspace hactive, put_apply workspace hactive]
  cases kind.rearrange? workspace.contents <;> rfl

theorem operate_apply (operator : Operator) :
    (image.apply workspace).operate operator =
      (workspace.operate operator).map image.apply id := by
  simp only [operate, contents_apply workspace hactive, put_apply workspace hactive]
  rcases Register.takePair? workspace.contents with _ | ⟨left, right, rest⟩
  · rfl
  · cases hresult : operator.result? left right <;> simp [hresult]

theorem negate_apply : (image.apply workspace).negate = image.apply workspace.negate := by
  simp only [negate, contents_apply workspace hactive, put_apply workspace hactive]
  rcases workspace.contents.popFront? with _ | ⟨value, rest⟩ <;> rfl

theorem takeCondition_apply : (image.apply workspace).takeCondition =
    workspace.takeCondition.map id image.apply := by
  simp only [takeCondition, contents_apply workspace hactive, put_apply workspace hactive]
  rcases workspace.contents.popFront? with _ | ⟨condition, rest⟩ <;> rfl

end Registers

theorem print_apply {form : PrintForm} (hkeeps : image.Keeps workspace (.print form)) :
    (image.apply workspace).print form = (workspace.print form).map image.apply id := by
  simp only [print, printValue_eq_write, contents_apply workspace hkeeps.active]
  rcases hpop : workspace.contents.popFront? with _ | ⟨value, rest⟩
  · rfl
  · have hwrite := hkeeps.write (printed form value) (by simp [printing?, hpop])
    have hwrite : Sink.write (printed form value) (image.apply workspace).output = _ := hwrite
    simp only [hwrite]
    rcases Sink.write (printed form value) workspace.output with ⟨result, output⟩
    have hput := put_apply { workspace with output := output } hkeeps.active rest
    cases result with
    | ok => exact congrArg (·, none) hput
    | error fault => exact congrArg (·, some (Mishap.io fault)) hput

/-! ### Reading -/

section Answers

omit [Source ι] [Source κ] [Sink ο] [Sink π]

/-- What a reading gives can be told from its answer. -/
theorem eq_of_map_answer {result : Type} {answer : result → Answer}
    (hinjective : Function.Injective answer) {change : ι → κ} {reading : Except Fault result × ι}
    {reading' : Except Fault result × κ}
    (hsame : reading'.map (·.map answer) id = (reading.map (·.map answer) id).map id change) :
    reading' = reading.map id change := by
  obtain ⟨outcome, input⟩ := reading
  obtain ⟨outcome', input'⟩ := reading'
  cases outcome <;> cases outcome' <;>
    simp_all [Except.map, hinjective.eq_iff]

theorem afterReading_apply {result : Type} {use : Workspace ι ο → result → Workspace ι ο}
    {use' : Workspace κ π → result → Workspace κ π} {reading : Except Fault result × ι}
    {reading' : Except Fault result × κ} (hreading : reading' = reading.map id image.input)
    (huse : ∀ input result, use' (image.apply { workspace with input := input }) result =
      image.apply (use { workspace with input := input } result)) :
    (image.apply workspace).afterReading reading' use' =
      (workspace.afterReading reading use).map image.apply id := by
  subst hreading
  obtain ⟨outcome, input⟩ := reading
  cases outcome with
  | ok result => exact congrArg (·, none) (huse input result)
  | error fault => rfl

end Answers

theorem readText_apply (hkeeps : image.Keeps workspace (.read .text)) :
    (image.apply workspace).readText = workspace.readText.map image.apply id := by
  simp only [readText, contents_apply workspace hkeeps.active, put_apply workspace hkeeps.active]
  rcases hpop : workspace.contents.popFront? with _ | ⟨delimiter, rest⟩
  · rfl
  · have hfinish : ∀ input bytes, let later := { workspace.put rest with input := input }
        (image.apply later).put ((image.apply later).contents.prepend (textRead bytes)) =
          image.apply (later.put (later.contents.prepend (textRead bytes))) := by
      intro input bytes later
      have hactive : image.Finds later.active := hkeeps.active
      rw [contents_apply later hactive, put_apply later hactive]
    by_cases hzero : delimiter.toInt64 = 0
    · have hask := hkeeps.ask .token (by simp [reading?, hpop, hzero])
      simp only [hzero, if_true]
      exact afterReading_apply (eq_of_map_answer (fun _ _ => Answer.token.inj) hask)
        fun input token? => hfinish input (token?.getD [])
    · have hask := hkeeps.ask (.text delimiter.toByte) (by simp [reading?, hpop, hzero])
      simp only [hzero, if_false]
      exact afterReading_apply (eq_of_map_answer (fun _ _ => Answer.text.inj) hask) hfinish

theorem read_apply {form : ReadForm} (hkeeps : image.Keeps workspace (.read form)) :
    (image.apply workspace).read form = (workspace.read form).map image.apply id := by
  cases form with
  | number =>
      have hask := hkeeps.ask .token rfl
      simp only [read]
      exact afterReading_apply (eq_of_map_answer (fun _ _ => Answer.token.inj) hask)
        fun input _ => push_apply { workspace with input := input } hkeeps.active _
  | byte =>
      have hask := hkeeps.ask .byte rfl
      simp only [read]
      exact afterReading_apply (eq_of_map_answer (fun _ _ => Answer.byte.inj) hask)
        fun input _ => push_apply { workspace with input := input } hkeeps.active _
  | text => exact readText_apply hkeeps

/-- **An instruction does in an image what it does in the original**, if the image keeps all that it
comes in touch with. -/
theorem execute_apply {instruction : Instruction} (hkeeps : image.Keeps workspace instruction) :
    (image.apply workspace).execute (instruction.rename image.letter) =
      (workspace.execute instruction).map image.apply id := by
  have hactive := hkeeps.active
  cases instruction with
  | transfer target =>
      exact congrArg (·, none) (transfer_apply workspace hactive (hkeeps.target target rfl))
  | digit value => exact congrArg (·, none) (push_apply workspace hactive _)
  | shuffle kind => exact congrArg (·, none) (shuffle_apply workspace hactive kind)
  | operate operator => exact operate_apply workspace hactive operator
  | not => exact congrArg (·, none) (negate_apply workspace hactive)
  | print form => exact print_apply hkeeps
  | read form => exact read_apply hkeeps
  | select | loopOpen | loopClose | leave | nop => rfl

end Image

end Workspace

theorem Control.skip_rename (control : Control) (instruction : Instruction)
    (letters : Letter → Letter) :
    control.skip (instruction.rename letters) = control.skip instruction := by
  cases instruction <;> rfl

/-! ## Whole runs -/

namespace Run

open Workspace

variable {ι κ ο π : Type}

theorem isPlain_rename {instruction : Instruction} (hplain : IsPlain instruction)
    (letters : Letter → Letter) : IsPlain (instruction.rename letters) := by
  cases instruction <;> first | exact hplain | exact ⟨rfl, nofun⟩

/-- The same run on the image of what it works on. -/
def imaged (image : Image ι κ ο π) (run : Run ι ο) : Run κ π where
  workspace := image.apply run.workspace
  control := run.control
  limit := run.limit
  status := run.status

section Parts

variable (image : Image ι κ ο π) (run : Run ι ο)

@[simp]
theorem workspace_imaged : (run.imaged image).workspace = image.apply run.workspace := rfl

@[simp]
theorem control_imaged : (run.imaged image).control = run.control := rfl

@[simp]
theorem limit_imaged : (run.imaged image).limit = run.limit := rfl

@[simp]
theorem status_imaged : (run.imaged image).status = run.status := rfl

end Parts

variable [Source ι] [Source κ] [Sink ο] [Sink π] {image : Image ι κ ο π}
  {program program' : Program} {run : Run ι ο}

theorem execute_imaged {instruction : Instruction}
    (hkeeps : image.Keeps run.workspace instruction) :
    ((run.imaged image).execute (instruction.rename image.letter)).1 =
      (run.execute instruction).1.imaged image := by
  by_cases hplain : IsPlain instruction
  · rw [execute_of_isPlain hplain, execute_of_isPlain (isPlain_rename hplain _)]
    simp only [executePlain, imaged, Image.execute_apply hkeeps]
    rcases run.workspace.execute instruction with ⟨workspace, mishap?⟩
    cases mishap? <;> rfl
  · cases instruction with
    | loopOpen =>
        have htake := Image.takeCondition_apply run.workspace hkeeps.active
        simp only [Instruction.rename, execute, openLoop, imaged, htake]
        rcases run.workspace.takeCondition with ⟨condition, workspace⟩
        cases condition <;> rfl
    | loopClose =>
        simp only [Instruction.rename, execute, closeLoop, imaged]
        cases run.control.back? <;> rfl
    | leave => rfl
    | _ => exact absurd ⟨rfl, by simp⟩ hplain

theorem step_imaged {instruction : Instruction}
    (hkeeps : run.control.mode = .running → image.Keeps run.workspace instruction) :
    ((run.imaged image).step (instruction.rename image.letter)).1 =
      (run.step instruction).1.imaged image := by
  have hsame : (run.imaged image).control.mode = run.control.mode := rfl
  cases hmode : run.control.mode with
  | skipping =>
      have hskip := run.control.countStep.skip_rename instruction image.letter
      simp only [step, hsame, hmode]
      exact congrArg (Run.mk _ · _ _) hskip
  | running =>
      have hexecute : (({ run with control := run.control.countStep }.imaged image).execute
          (instruction.rename image.letter)).1 = _ := execute_imaged (hkeeps hmode)
      simp only [step, hsame, hmode]
      exact hexecute

/-- **A run goes on in an image as it does in the original**, if the image keeps what the next
instruction comes in touch with. -/
theorem next_imaged
    (hget : program'.get? run.control.position =
      (program.get? run.control.position).map (·.rename image.letter))
    (hkeeps : ∀ instruction, run.Ready program instruction → run.control.mode = .running →
      image.Keeps run.workspace instruction) :
    ((run.imaged image).next program').1 = (run.next program).1.imaged image := by
  by_cases hworking : run.status = .working
  · cases hinstruction : program.get? run.control.position with
    | none =>
        rw [hinstruction] at hget
        rw [next_of_end hworking hinstruction]
        exact next_of_end hworking hget
    | some instruction =>
        rw [hinstruction] at hget
        cases hlimit : run.exhausted? with
        | some limit =>
            rw [next_of_exhausted hworking hinstruction hlimit]
            exact next_of_exhausted hworking hget hlimit
        | none =>
            have hready : run.Ready program instruction := ⟨hworking, hinstruction, hlimit⟩
            have hready' : (run.imaged image).Ready program'
                (instruction.rename image.letter) := ⟨hworking, hget, hlimit⟩
            rw [next_of_ready hready, next_of_ready hready',
              step_imaged (hkeeps instruction hready)]
  · have hended : (run.imaged image).status ≠ .working := hworking
    rw [next_of_ended hworking, next_of_ended hended]

theorem after_imaged {count : Nat}
    (hget : ∀ position, program'.get? position =
      (program.get? position).map (·.rename image.letter))
    (hkeeps : ∀ earlier < count, ∀ instruction,
      (run.after program earlier).Ready program instruction →
      (run.after program earlier).control.mode = .running →
      image.Keeps (run.after program earlier).workspace instruction) :
    (run.imaged image).after program' count = (run.after program count).imaged image := by
  induction count with
  | zero => rfl
  | succ count ih =>
      have hearlier := ih fun earlier hlt => hkeeps earlier (Nat.lt_succ_of_lt hlt)
      rw [after_succ, after_succ, hearlier,
        next_imaged (hget _) (hkeeps count (Nat.lt_succ_self count))]

end Run

end LetterMachine
