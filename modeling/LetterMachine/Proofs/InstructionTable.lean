import LetterMachine.Proofs.CleanFailures
import LetterMachine.Proofs.Frame
import LetterMachine.Proofs.TableResults

/-!
# The table of instructions

What each instruction is for is written down here once more, as a table over the values of the
active register from the front to the back: how many values an instruction needs, which of them it
takes, and what it puts in their place.  The table does not call the machine: its results are those
of `Operator.Results`, `PrintForm.Prints`, `ReadsNumber`, `ReadsByte` and `StoresText`.

`Run.next_followsTable` says that a transition of a run is as the table has it.  An instruction with
too few values to work on leaves everything as it is.  An instruction with enough of them has the
effect of its entry, or fails in one of the two ways in which an instruction on registers can fail.
-/

namespace LetterMachine

/-- How many values an instruction needs in the active register. -/
def Instruction.needs : Instruction → Nat
  | .operate _ | .shuffle .swap => 2
  | .transfer _ | .shuffle _ | .not | .print _ | .read .text => 1
  | .select _ | .digit _ | .read _ | .loopOpen | .loopClose | .leave | .nop _ => 0

/-! ## The table -/

namespace Workspace

variable {ι ο : Type}

/-- The workspace with other values in one register, from the front to the back. -/
def withValues (workspace : Workspace ι ο) (letter : Letter) (values : List Value) :
    Workspace ι ο :=
  { workspace with bank := workspace.bank.set letter (.ofList values) }

/-- The values of the active register, from the front to the back. -/
def values (workspace : Workspace ι ο) : List Value :=
  workspace.contents.toList

/-- The values that a rearrangement leaves. -/
inductive Rearranges : Shuffle → List Value → List Value → Prop where
  | dup (a : Value) (rest : List Value) : Rearranges .dup (a :: rest) (a :: a :: rest)
  | swap (b a : Value) (rest : List Value) : Rearranges .swap (b :: a :: rest) (a :: b :: rest)
  | backToFront (rest : List Value) (last : Value) :
      Rearranges .backToFront (rest ++ [last]) (last :: rest)
  | frontToBack (a : Value) (rest : List Value) :
      Rearranges .frontToBack (a :: rest) (rest ++ [a])
  | drop (a : Value) (rest : List Value) : Rearranges .drop (a :: rest) rest

variable [Source ι] [Sink ο]

/-- The table: an instruction, carried out with success on enough values, makes one workspace of
another.  Only the values named are consumed, and what is under them stays as it is. -/
inductive Effect (before : Workspace ι ο) : Instruction → Workspace ι ο → Prop where
  | select (letter : Letter) : Effect before (.select letter) { before with active := letter }
  | transfer {target : Letter} {a : Value} {rest : List Value} (hvalues : before.values = a :: rest)
      (hother : target ≠ before.active) :
      Effect before (.transfer target)
        ((before.withValues before.active rest).withValues target
          (a :: (before.bank.get target).toList))
  | transferBack {a : Value} {rest : List Value} (hvalues : before.values = a :: rest) :
      Effect before (.transfer before.active) before
  | digit (value : Fin 10) :
      Effect before (.digit value)
        (before.withValues before.active (.integer (.ofNat value) :: before.values))
  | shuffle {kind : Shuffle} {left : List Value} (hvalues : Rearranges kind before.values left) :
      Effect before (.shuffle kind) (before.withValues before.active left)
  | operate {operator : Operator} {a b result : Value} {rest : List Value}
      (hvalues : before.values = b :: a :: rest) (hresult : operator.Results a b result) :
      Effect before (.operate operator) (before.withValues before.active (result :: rest))
  | not {a result : Value} {rest : List Value} (hvalues : before.values = a :: rest)
      (hresult : result.Tells (a.integerView = 0)) :
      Effect before .not (before.withValues before.active (result :: rest))
  | print {form : PrintForm} {a : Value} {rest : List Value} {bytes : List UInt8} {output : ο}
      (hvalues : before.values = a :: rest) (hbytes : form.Prints a bytes)
      (hwrite : Sink.write bytes before.output = (.ok (), output)) :
      Effect before (.print form)
        { before.withValues before.active rest with output := output }
  | number {token? : Option (List UInt8)} {value : Value} {input : ι}
      (hread : Source.readToken before.input = (.ok token?, input))
      (hvalue : ReadsNumber token? value) :
      Effect before (.read .number)
        { before.withValues before.active (value :: before.values) with input := input }
  | byte {byte? : Option UInt8} {value : Value} {input : ι}
      (hread : Source.readByte before.input = (.ok byte?, input))
      (hvalue : ReadsByte byte? value) :
      Effect before (.read .byte)
        { before.withValues before.active (value :: before.values) with input := input }
  | token {a : Value} {rest values : List Value} {token? : Option (List UInt8)} {input : ι}
      (hvalues : before.values = a :: rest) (hzero : a.integerView = 0)
      (hread : Source.readToken before.input = (.ok token?, input))
      (htext : StoresText (token?.getD []) values) :
      Effect before (.read .text)
        { before.withValues before.active (values ++ rest) with input := input }
  | text {a : Value} {rest values : List Value} {delimiter : UInt8} {bytes : List UInt8} {input : ι}
      (hvalues : before.values = a :: rest) (hnonzero : a.integerView ≠ 0)
      (hdelimiter : (delimiter.toNat : ℤ) = a.integerView % 256)
      (hread : Source.readUntil delimiter before.input = (.ok bytes, input))
      (htext : StoresText bytes values) :
      Effect before (.read .text)
        { before.withValues before.active (values ++ rest) with input := input }
  | nop (character : Char) : Effect before (.nop character) before

section Execution

variable {workspace after : Workspace ι ο} {instruction : Instruction}

section Registers

omit [Source ι] [Sink ο]

theorem contents_of_values {values : List Value} (hvalues : workspace.values = values) :
    workspace.contents = .ofList values := by
  rw [← hvalues, Workspace.values, Deque.ofList_toList]

theorem withValues_values (workspace : Workspace ι ο) :
    workspace.withValues workspace.active workspace.values = workspace := by
  rw [values, withValues, Deque.ofList_toList]
  exact workspace.put_contents

theorem popFront?_of_starved (hstarved : workspace.values.length < 1) :
    workspace.contents.popFront? = none := by
  rw [contents_of_values (List.eq_nil_of_length_eq_zero (Nat.lt_one_iff.mp hstarved)),
    Deque.popFront?_ofList_nil]

theorem transfer_of_starved {target : Letter} (hstarved : workspace.values.length < 1) :
    workspace.transfer target = workspace := by
  have hpop := popFront?_of_starved hstarved
  rw [contents] at hpop
  simp only [transfer, Bank.transfer?, hpop, Option.map_none]

theorem takePair?_of_starved (hstarved : workspace.values.length < 2) :
    Register.takePair? workspace.contents = none := by
  match hvalues : workspace.values with
  | [] => rw [contents_of_values hvalues, Register.takePair?_ofList_nil]
  | [a] => rw [contents_of_values hvalues, Register.takePair?_ofList_singleton]
  | b :: a :: rest =>
      rw [hvalues] at hstarved
      exact absurd hstarved (by simp)

theorem rearrange?_of_starved {kind : Shuffle}
    (hstarved : workspace.values.length < (Instruction.shuffle kind).needs) :
    kind.rearrange? workspace.contents = none := by
  cases kind with
  | swap => rw [Shuffle.rearrange?, Register.swap?, takePair?_of_starved hstarved, Option.map_none]
  | backToFront =>
      rw [contents_of_values (List.eq_nil_of_length_eq_zero (Nat.lt_one_iff.mp hstarved)),
        Shuffle.rearrange?, Register.backToFront?, Deque.popBack?_ofList_nil, Option.map_none]
  | dup | frontToBack | drop =>
      simp only [Shuffle.rearrange?, Register.dup?, Register.frontToBack?, Register.drop?,
        popFront?_of_starved hstarved, Option.map_none]

end Registers

/-- An instruction that wants for values does nothing. -/
theorem execute_of_starved (hstarved : workspace.values.length < instruction.needs) :
    workspace.execute instruction = (workspace, none) := by
  cases instruction with
  | transfer target => rw [execute, transfer_of_starved hstarved]
  | shuffle kind => simp only [execute, shuffle, rearrange?_of_starved hstarved]
  | operate operator => simp only [execute, operate, takePair?_of_starved hstarved]
  | not => simp only [execute, negate, popFront?_of_starved hstarved]
  | print form => simp only [execute, print, popFront?_of_starved hstarved]
  | read form =>
      cases form with
      | text => simp only [execute, read, readText, popFront?_of_starved hstarved]
      | number | byte => exact absurd hstarved (Nat.not_lt_zero _)
  | select | digit | loopOpen | loopClose | leave | nop =>
      exact absurd hstarved (Nat.not_lt_zero _)

section Registers

omit [Source ι] [Sink ο]

theorem exists_pair (hneeds : 2 ≤ workspace.values.length) :
    ∃ b a rest, workspace.values = b :: a :: rest := by
  match hvalues : workspace.values with
  | [] | [a] =>
      rw [hvalues] at hneeds
      exact absurd hneeds (by simp)
  | b :: a :: rest => exact ⟨b, a, rest, rfl⟩

theorem exists_last (hneeds : 1 ≤ workspace.values.length) :
    ∃ rest last, workspace.values = rest ++ [last] :=
  ⟨_, _, (List.dropLast_concat_getLast (List.ne_nil_of_length_pos hneeds)).symm⟩

/-- A rearrangement of enough values is that of the table. -/
theorem exists_rearranges {kind : Shuffle}
    (hneeds : (Instruction.shuffle kind).needs ≤ workspace.values.length) :
    ∃ left, Rearranges kind workspace.values left ∧
      kind.rearrange? workspace.contents = some (.ofList left) := by
  cases kind with
  | swap =>
      obtain ⟨b, a, rest, hvalues⟩ := exists_pair hneeds
      rw [hvalues, contents_of_values hvalues]
      exact ⟨_, .swap b a rest, by simp [Shuffle.rearrange?, Register.swap?]⟩
  | backToFront =>
      obtain ⟨rest, last, hvalues⟩ := exists_last hneeds
      rw [hvalues, contents_of_values hvalues]
      exact ⟨_, .backToFront rest last, by simp [Shuffle.rearrange?, Register.backToFront?]⟩
  | dup =>
      obtain ⟨a, rest, hvalues⟩ := List.exists_cons_of_length_pos hneeds
      rw [hvalues, contents_of_values hvalues]
      exact ⟨_, .dup a rest, by simp [Shuffle.rearrange?, Register.dup?]⟩
  | frontToBack =>
      obtain ⟨a, rest, hvalues⟩ := List.exists_cons_of_length_pos hneeds
      rw [hvalues, contents_of_values hvalues]
      exact ⟨_, .frontToBack a rest, by simp [Shuffle.rearrange?, Register.frontToBack?]⟩
  | drop =>
      obtain ⟨a, rest, hvalues⟩ := List.exists_cons_of_length_pos hneeds
      rw [hvalues, contents_of_values hvalues]
      exact ⟨_, .drop a rest, by simp [Shuffle.rearrange?, Register.drop?]⟩

theorem transfer_of_values {target : Letter} {a : Value} {rest : List Value}
    (hvalues : workspace.values = a :: rest) :
    workspace.transfer target =
      { workspace with
        bank := (workspace.bank.set workspace.active (.ofList rest)).push target a } := by
  have hcontents := contents_of_values hvalues
  rw [contents] at hcontents
  simp only [transfer, Bank.transfer?, hcontents, Deque.popFront?_ofList_cons, Option.map_some]

/-- A transfer takes the front value of the active register, and puts it in front of what the target
holds then. -/
theorem transfer_eq_withValues {target : Letter} {a : Value} {rest : List Value}
    (hvalues : workspace.values = a :: rest) :
    workspace.transfer target =
      (workspace.withValues workspace.active rest).withValues target
        (a :: ((workspace.withValues workspace.active rest).bank.get target).toList) := by
  rw [transfer_of_values hvalues, withValues, Bank.push, withValues, ← Deque.pushFront_ofList,
    Deque.ofList_toList]

end Registers

/-- A value that is transferred comes to the front of its target.  If the target is the active
register, it comes back to its place. -/
theorem effect_transfer {target : Letter} {a : Value} {rest : List Value}
    (hvalues : workspace.values = a :: rest) :
    workspace.Effect (.transfer target) (workspace.transfer target) := by
  rw [transfer_of_values hvalues]
  by_cases hother : target = workspace.active
  · subst hother
    have hbank : (workspace.bank.set workspace.active (.ofList rest)).push workspace.active a =
        workspace.bank := by
      rw [Bank.push, Bank.get_set_self, Bank.set_set, Deque.pushFront_ofList,
        ← contents_of_values hvalues]
      exact Bank.set_get_self ..
    rw [hbank]
    exact .transferBack hvalues
  · have htarget : ((workspace.bank.set workspace.active (.ofList rest)).get target).pushFront a =
        .ofList (a :: (workspace.bank.get target).toList) := by
      rw [Bank.get_set_of_ne _ (Ne.symm hother), ← Deque.pushFront_ofList, Deque.ofList_toList]
    rw [Bank.push, htarget]
    exact .transfer hvalues hother

omit [Source ι] [Sink ο] in
theorem eq_of_afterReading_ok {result : Type} {use : Workspace ι ο → result → Workspace ι ο}
    {reading : Except Fault result × ι} (hok : workspace.afterReading reading use = (after, none)) :
    ∃ found input, reading = (.ok found, input) ∧
      after = use { workspace with input := input } found := by
  obtain ⟨outcome, input⟩ := reading
  cases outcome with
  | error fault => cases hok
  | ok found => exact ⟨found, input, rfl, (congrArg Prod.fst hok).symm⟩

theorem effect_print {form : PrintForm} {a : Value} {rest : List Value}
    (hvalues : workspace.values = a :: rest) (hok : workspace.print form = (after, none)) :
    workspace.Effect (.print form) after := by
  rcases hwrite : Sink.write (printed form a) workspace.output with ⟨result, output⟩
  simp only [print, printValue_eq_write, contents_of_values hvalues, Deque.popFront?_ofList_cons,
    hwrite] at hok
  cases result with
  | error fault => cases hok
  | ok =>
      cases hok
      exact .print hvalues (form.prints_printed a) hwrite

omit [Source ι] [Sink ο] in
theorem push_eq_withValues (value : Value) :
    workspace.push value = workspace.withValues workspace.active (value :: workspace.values) := by
  rw [push, contents_of_values rfl, Deque.pushFront_ofList]
  rfl

omit [Source ι] [Sink ο] in
/-- A text is put on what was under its delimiter. -/
theorem put_prepend_eq_withValues (rest values : List Value) (input : ι) :
    let taken := { workspace.put (.ofList rest) with input := input }
    taken.put (taken.contents.prepend values) =
      { workspace.withValues workspace.active (values ++ rest) with input := input } := by
  have hcontents : ({ workspace.put (.ofList rest) with input := input }).contents =
      .ofList rest := Bank.get_set_self ..
  simp only [hcontents, Deque.prepend_ofList]
  exact congrArg (Workspace.mk · _ _ _) (Bank.set_set ..)

theorem effect_readText {a : Value} {rest : List Value} (hvalues : workspace.values = a :: rest)
    (hok : workspace.readText = (after, none)) : workspace.Effect (.read .text) after := by
  simp only [readText, contents_of_values hvalues, Deque.popFront?_ofList_cons] at hok
  by_cases hzero : a.toInt64 = 0
  · rw [if_pos hzero] at hok
    obtain ⟨token?, input, hread, rfl⟩ := eq_of_afterReading_ok hok
    rw [put_prepend_eq_withValues]
    exact .token hvalues (Value.toInt64_eq_zero_iff.mp hzero) hread (storesText_textRead _)
  · rw [if_neg hzero] at hok
    obtain ⟨bytes, input, hread, rfl⟩ := eq_of_afterReading_ok hok
    rw [put_prepend_eq_withValues]
    have hdelimiter := a.toNat_toByte
    rw [Value.toInt_toInt64] at hdelimiter
    exact .text hvalues (Value.toInt64_eq_zero_iff.not.mp hzero) hdelimiter hread
      (storesText_textRead bytes)

theorem effect_read {form : ReadForm}
    (hneeds : (Instruction.read form).needs ≤ workspace.values.length)
    (hok : workspace.read form = (after, none)) : workspace.Effect (.read form) after := by
  cases form with
  | number =>
      simp only [read] at hok
      obtain ⟨token?, input, hread, rfl⟩ := eq_of_afterReading_ok hok
      rw [push_eq_withValues]
      exact .number hread (readsNumber_numberRead token?)
  | byte =>
      simp only [read] at hok
      obtain ⟨byte?, input, hread, rfl⟩ := eq_of_afterReading_ok hok
      rw [push_eq_withValues]
      exact .byte hread (readsByte_byteRead byte?)
  | text =>
      obtain ⟨a, rest, hvalues⟩ := List.exists_cons_of_length_pos hneeds
      exact effect_readText hvalues hok

theorem effect_operate {operator : Operator} {b a : Value} {rest : List Value}
    (hvalues : workspace.values = b :: a :: rest)
    (hok : workspace.operate operator = (after, none)) :
    workspace.Effect (.operate operator) after := by
  rw [operate, contents_of_values hvalues, Register.takePair?_ofList_cons_cons] at hok
  cases hresult : operator.result? a b with
  | none =>
      simp only [hresult] at hok
      cases hok
  | some result =>
      simp only [hresult, Deque.pushFront_ofList] at hok
      cases hok
      exact .operate hvalues (Operator.results_of_result? hresult)

theorem effect_negate {a : Value} {rest : List Value} (hvalues : workspace.values = a :: rest) :
    workspace.Effect .not workspace.negate := by
  have hnot : a.not.Tells (a.integerView = 0) := by
    apply Value.tells_ofBool
    rw [Bool.not_eq_true', ← Bool.not_eq_true, Value.isTruthy_iff, not_not]
  have hnegate : workspace.negate = workspace.withValues workspace.active (a.not :: rest) := by
    rw [negate, contents_of_values hvalues]
    rfl
  rw [hnegate]
  exact .not hvalues hnot

/-- **An instruction with enough values has the effect of the table**, unless it fails. -/
theorem effect_execute (hplain : Run.IsPlain instruction)
    (hneeds : instruction.needs ≤ workspace.values.length)
    (hok : workspace.execute instruction = (after, none)) :
    workspace.Effect instruction after := by
  cases instruction with
  | select letter =>
      cases hok
      exact .select letter
  | transfer target =>
      cases hok
      obtain ⟨a, rest, hvalues⟩ := List.exists_cons_of_length_pos hneeds
      exact effect_transfer hvalues
  | digit value =>
      cases hok
      rw [push_eq_withValues]
      exact .digit value
  | shuffle kind =>
      cases hok
      obtain ⟨left, hleft, hrearrange⟩ := exists_rearranges hneeds
      rw [shuffle, hrearrange]
      exact .shuffle hleft
  | operate operator =>
      obtain ⟨b, a, rest, hvalues⟩ := exists_pair hneeds
      exact effect_operate hvalues hok
  | not =>
      cases hok
      obtain ⟨a, rest, hvalues⟩ := List.exists_cons_of_length_pos hneeds
      exact effect_negate hvalues
  | print form =>
      obtain ⟨a, rest, hvalues⟩ := List.exists_cons_of_length_pos hneeds
      exact effect_print hvalues hok
  | read form => exact effect_read hneeds hok
  | nop character =>
      cases hok
      exact .nop character
  | loopOpen | loopClose => cases hplain.1
  | leave => exact absurd rfl hplain.2

end Execution

end Workspace

/-! ## Transitions of a run -/

/-- One step has been counted and one instruction left behind, and all else is as it was. -/
def Control.StepsOver (before after : Control) : Prop :=
  after = { before with position := before.position + 1, steps := before.steps + 1 }

namespace Run

variable {ι ο : Type} [Source ι] [Sink ο]

/-- A run has been carried on over an instruction as the table has it. -/
structure FollowsTable (before : Run ι ο) (instruction : Instruction) (after : Run ι ο) :
    Prop where
  /-- Only the active register changes, and the target of a transfer. -/
  others_eq : ∀ letter, letter ≠ before.workspace.active → instruction ≠ .transfer letter →
    after.workspace.bank.get letter = before.workspace.bank.get letter
  active_eq : after.workspace.active = instruction.selected?.getD before.workspace.active
  /-- With too few values, nothing happens but that the run goes on to the next instruction. -/
  starved : before.workspace.values.length < instruction.needs →
    after = { before with control := after.control } ∧ before.control.StepsOver after.control
  /-- With enough values, the instruction has its effect, and the run goes on likewise. -/
  served : instruction.needs ≤ before.workspace.values.length → after.status = .working →
    before.workspace.Effect instruction after.workspace ∧
      before.control.StepsOver after.control ∧ after.limit = before.limit
  /-- The only failures are that of a remainder of integers by zero, which leaves the registers, the
  source and the sink as they were, and those of the source and the sink. -/
  failed : after.status ≠ .working →
    (instruction = .operate .rem ∧ after.workspace = before.workspace ∧
      ∃ number rest, before.workspace.values = .integer 0 :: .integer number :: rest) ∨
    ∃ fault, before.workspace.Fails fault instruction after.workspace

variable {program : Program} {run : Run ι ο} {instruction : Instruction}

/-- Whether the instruction fails or not, the run is left with what it works on. -/
theorem workspace_next_of_isPlain (hready : run.Ready program instruction)
    (hmode : run.control.mode = .running) (hplain : IsPlain instruction) :
    (run.next program).1.workspace = (run.workspace.execute instruction).1 := by
  rcases hexecute : run.workspace.execute instruction with ⟨workspace, mishap?⟩
  cases mishap? with
  | none => rw [next_of_execute_ok hready hmode hplain hexecute]
  | some mishap => rw [next_of_execute_error hready hmode hplain hexecute]

/-- **A transition of a run that executes an instruction is as the table has it.** -/
theorem next_followsTable
    (hready : run.Ready program instruction) (hmode : run.control.mode = .running)
    (hplain : IsPlain instruction) : run.FollowsTable instruction (run.next program).1 := by
  have hworkspace := workspace_next_of_isPlain hready hmode hplain
  exact {
    others_eq := by
      intro letter hactive htarget
      rw [hworkspace]
      exact Workspace.get_execute hactive htarget
    active_eq := by
      rw [hworkspace]
      exact run.workspace.active_execute instruction
    starved := by
      intro hstarved
      have hexecute := Workspace.execute_of_starved hstarved
      rw [next_of_execute_ok hready hmode hplain hexecute]
      exact ⟨rfl, rfl⟩
    served := by
      intro hneeds hworking
      rcases hexecute : run.workspace.execute instruction with ⟨workspace, mishap?⟩
      cases mishap? with
      | none =>
          rw [next_of_execute_ok hready hmode hplain hexecute]
          exact ⟨Workspace.effect_execute hplain hneeds hexecute, rfl, rfl⟩
      | some mishap =>
          rw [next_of_execute_error hready hmode hplain hexecute] at hworking
          cases hworking
    failed := by
      intro hended
      rcases hexecute : run.workspace.execute instruction with ⟨workspace, mishap?⟩
      cases mishap? with
      | none =>
          rw [next_of_execute_ok hready hmode hplain hexecute] at hended
          exact absurd hready.working hended
      | some mishap =>
          rw [next_of_execute_error hready hmode hplain hexecute]
          cases mishap with
          | remainderByZero =>
              have hzero := Workspace.execute_fails_iff.mp (congrArg Prod.snd hexecute)
              exact .inl ⟨hzero.1, Workspace.eq_of_execute_fails hexecute, hzero.2⟩
          | io fault => exact .inr ⟨fault, Workspace.fails_of_execute hexecute⟩ }

/-- The front value is the right operand of a difference, and the values under the two operands
stay. -/
theorem next_followsTable_of_sub :
    let program := Program.ofChars ['7', '5', '3', '-']
    let start : Run ByteStream OutputBuffer := Machine.start {} ⟨[], false⟩ {}
    let run := start.after program 3
    run.workspace.values = [.integer 3, .integer 5, .integer 7] ∧
      run.FollowsTable (.operate .sub) (run.next program).1 ∧
      (run.next program).1.workspace.values = [.integer 2, .integer 7] := by
  intro program start run
  have hready : run.Ready program (.operate .sub) := ⟨rfl, rfl, rfl⟩
  have hplain : IsPlain (.operate .sub) := ⟨rfl, nofun⟩
  have hfollows := next_followsTable hready rfl hplain
  exact ⟨by decide, hfollows, by decide⟩

end Run

end LetterMachine
