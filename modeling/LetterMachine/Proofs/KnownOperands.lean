import LetterMachine.Proofs.ModularArithmetic

/-!
# Instructions on known operands

What an instruction does when the values of the active register, the source and the sink are known:
`Workspace.holding` is a workspace in which they are, and each of the lemmas about it says that an
instruction succeeds and what is then held.  With them, a list of instructions is carried out one
after the other by `Workspace.Performs`.

Of a source it is asked only that its readings are those of a plain stream of bytes, and of a sink
that there is room in it for what is written.
-/

namespace LetterMachine

/-! ## Sources of bytes -/

/-- A source that gives to every reading what the plain stream of its bytes gives. -/
class ByteSource (ι : Type) [Source ι] where
  stream : ι → ByteStream
  stream_ask : ∀ (reading : Reading) (source : ι),
    (reading.ask source).map id stream = reading.ask (stream source)

instance : ByteSource ByteStream where
  stream := id
  stream_ask _ _ := rfl

instance {ρ : Type} [PieceReader ρ] : ByteSource ρ where
  stream := PieceReader.rest
  stream_ask := PieceReader.rest_ask

namespace ByteSource

variable {ι : Type} [Source ι] [ByteSource ι] {source : ι} {left : ByteStream}

/-- What is answered and what is left are known from the stream. -/
theorem exists_ask {reading : Reading} {result : Except Fault Answer}
    (hask : reading.ask (stream source) = (result, left)) :
    ∃ source', reading.ask source = (result, source') ∧ stream source' = left := by
  rw [← stream_ask] at hask
  obtain ⟨hresult, hleft⟩ := Prod.mk.inj hask
  exact ⟨_, Prod.ext hresult rfl, hleft⟩

omit [Source ι] [ByteSource ι] in
/-- An answer that has been given has been read. -/
theorem eq_ok_of_answer {result : Type} {answer : result → Answer}
    (hinjective : Function.Injective answer) {reading : Except Fault result × ι} {found : result}
    (hanswer : reading.map (·.map answer) id = (.ok (answer found), source)) :
    reading = (.ok found, source) := by
  obtain ⟨outcome, input⟩ := reading
  cases outcome with
  | error fault => cases (Prod.mk.inj hanswer).1
  | ok result =>
      obtain ⟨hresult, hinput⟩ := Prod.mk.inj hanswer
      rw [hinjective (Except.ok.inj hresult), ← hinput, id]

theorem exists_readByte {byte? : Option UInt8}
    (hread : (stream source).readByte = (.ok byte?, left)) :
    ∃ source', Source.readByte source = (.ok byte?, source') ∧ stream source' = left := by
  have hask : Reading.byte.ask (stream source) = (.ok (.byte byte?), left) :=
    congrArg (Prod.map (Except.map Answer.byte) id) hread
  obtain ⟨source', hanswer, hleft⟩ := exists_ask hask
  exact ⟨source', eq_ok_of_answer (fun _ _ => Answer.byte.inj) hanswer, hleft⟩

end ByteSource

/-! ## Sinks with room -/

namespace OutputBuffer

variable {buffer : OutputBuffer} {bytes : List UInt8} {count : Nat}

/-- There is room for as many more bytes. -/
def HasRoom (buffer : OutputBuffer) (count : Nat) : Prop :=
  ∀ room ∈ buffer.room?, count ≤ room

theorem write_of_hasRoom (hroom : buffer.HasRoom bytes.length) :
    buffer.write bytes = (.ok (), buffer.append bytes) := by
  cases hlimit : buffer.room? with
  | none => simp only [write, hlimit]
  | some room =>
      have hfits : bytes.length ≤ room := hroom room hlimit
      simp only [write, hlimit, hfits, if_true]

theorem HasRoom.mono {fewer : Nat} (hroom : buffer.HasRoom count) (hle : fewer ≤ count) :
    buffer.HasRoom fewer :=
  fun room hmem => hle.trans (hroom room hmem)

theorem HasRoom.append (hroom : buffer.HasRoom (bytes.length + count)) :
    (buffer.append bytes).HasRoom count := by
  intro room hmem
  obtain ⟨before, hbefore, rfl⟩ := Option.map_eq_some_iff.mp hmem
  exact Nat.le_sub_of_add_le' (hroom before hbefore)

theorem HasRoom.append_one (hroom : buffer.HasRoom (count + 1)) (byte : UInt8) :
    (buffer.append [byte]).HasRoom count :=
  HasRoom.append (by rwa [List.length_singleton, Nat.add_comm])

@[simp]
theorem append_nil (buffer : OutputBuffer) : buffer.append [] = buffer := by
  simp [OutputBuffer.append]

theorem append_append (buffer : OutputBuffer) (first second : List UInt8) :
    (buffer.append first).append second = buffer.append (first ++ second) := by
  simp [OutputBuffer.append, List.reverseAux_eq, Function.comp_def, Nat.sub_sub]

end OutputBuffer

/-! ## Workspaces that hold given values -/

namespace Workspace

variable {ι ο : Type}

/-- The workspace with these values in the active register, from the front to the back, and with its
source and its sink in these states. -/
def holding (workspace : Workspace ι ο) (values : List Value) (input : ι) (output : ο) :
    Workspace ι ο :=
  { workspace.withValues workspace.active values with
    input := input
    output := output }

section

variable (workspace : Workspace ι ο) (values values' : List Value) (input : ι) (output : ο)

@[simp]
theorem values_holding : (workspace.holding values input output).values = values := by
  simp [Workspace.values, contents, holding, withValues]

@[simp]
theorem contents_holding : (workspace.holding values input output).contents = .ofList values :=
  contents_of_values (values_holding ..)

@[simp]
theorem put_holding : (workspace.holding values input output).put (.ofList values') =
    workspace.holding values' input output :=
  congrArg (Workspace.mk · _ _ _) (Bank.set_set ..)

@[simp]
theorem input_holding : (workspace.holding values input output).input = input := rfl

theorem get_holding_of_ne {letter : Letter} (hne : letter ≠ workspace.active) :
    (workspace.holding values input output).bank.get letter = workspace.bank.get letter :=
  Bank.get_set_of_ne workspace.bank hne.symm (.ofList values)

theorem prepend_holding :
    (workspace.holding values input output).put
        ((workspace.holding values input output).contents.prepend values') =
      workspace.holding (values' ++ values) input output := by
  rw [contents_holding, Deque.prepend_ofList, put_holding]

theorem push_holding (value : Value) : (workspace.holding values input output).push value =
    workspace.holding (value :: values) input output := by
  rw [push, contents_holding, Deque.pushFront_ofList, put_holding]

theorem holding_self :
    workspace.holding workspace.values workspace.input workspace.output = workspace := by
  rw [holding, withValues_values]

end

section Execution

variable (workspace : Workspace ι ο) (values rest : List Value) (input : ι) (output : ο)

theorem takeCondition_holding (condition : Value) :
    (workspace.holding (condition :: rest) input output).takeCondition =
      (condition.isTruthy, workspace.holding rest input output) := by
  simp only [takeCondition, contents_holding, Deque.popFront?_ofList_cons, put_holding]

variable [Source ι] [Sink ο]

theorem execute_digit (digit : Fin 10) :
    (workspace.holding values input output).execute (.digit digit) =
      (workspace.holding (.integer (.ofNat digit) :: values) input output, none) := by
  rw [execute, push_holding]

theorem execute_shuffle (kind : Shuffle) :
    (workspace.holding values input output).execute (.shuffle kind) =
      (workspace.holding (kind.onList values) input output, none) := by
  rw [execute, shuffle_eq_withValues, values_holding]
  exact congrArg (·, none) (put_holding ..)

theorem execute_operate {operator : Operator} {left right result : Value}
    (hresult : operator.result? left right = some result) :
    (workspace.holding (right :: left :: rest) input output).execute (.operate operator) =
      (workspace.holding (result :: rest) input output, none) := by
  simp only [execute, operate, contents_holding, Register.takePair?_ofList_cons_cons, hresult,
    Deque.pushFront_ofList, put_holding]

/-- The value printed is taken, and the sink has its bytes. -/
theorem execute_print {form : PrintForm} {value : Value} {output' : ο}
    (hwrite : Sink.write (printed form value) output = (.ok (), output')) :
    (workspace.holding (value :: rest) input output).execute (.print form) =
      (workspace.holding rest input output', none) := by
  have houtput : (workspace.holding (value :: rest) input output).output = output := rfl
  simp only [execute, print, printValue_eq_write, contents_holding, Deque.popFront?_ofList_cons,
    houtput, hwrite]
  exact congrArg (·, none) (put_holding workspace (value :: rest) rest input output')

variable [ByteSource ι]

open ByteSource

theorem execute_readByte {byte? : Option UInt8} {left : ByteStream}
    (hread : (stream input).readByte = (.ok byte?, left)) :
    ∃ input', stream input' = left ∧
      (workspace.holding values input output).execute (.read .byte) =
        (workspace.holding (byteRead byte? :: values) input' output, none) := by
  obtain ⟨input', hsource, hleft⟩ := exists_readByte hread
  refine ⟨input', hleft, ?_⟩
  rw [execute, read, input_holding, hsource]
  exact congrArg (·, none) (push_holding workspace values input' output (byteRead byte?))

end Execution

/-! ### One instruction, and those behind it -/

section Performs

variable [Source ι] [Sink ο] {workspace after : Workspace ι ο} {values rest : List Value}
variable {input : ι} {output : ο} {instructions : List Instruction}

theorem performs_digit {digit : Fin 10}
    (hrest : (workspace.holding (.integer (.ofNat digit) :: values) input output).Performs
      instructions after) :
    (workspace.holding values input output).Performs (.digit digit :: instructions) after :=
  .cons ⟨rfl, Instruction.noConfusion⟩ (execute_digit ..) hrest

theorem performs_shuffle {kind : Shuffle}
    (hrest : (workspace.holding (kind.onList values) input output).Performs instructions after) :
    (workspace.holding values input output).Performs (.shuffle kind :: instructions) after :=
  .cons ⟨rfl, Instruction.noConfusion⟩ (execute_shuffle ..) hrest

theorem performs_operate {operator : Operator} {left right result : Value}
    (hresult : operator.result? left right = some result)
    (hrest : (workspace.holding (result :: rest) input output).Performs instructions after) :
    (workspace.holding (right :: left :: rest) input output).Performs
      (.operate operator :: instructions) after :=
  .cons ⟨rfl, Instruction.noConfusion⟩ (execute_operate _ _ _ _ hresult) hrest

end Performs

theorem performs_printByte [Source ι] {workspace after : Workspace ι OutputBuffer} {value : Value}
    {byte : UInt8} {rest : List Value} {input : ι} {output : OutputBuffer}
    {instructions : List Instruction} {count : Nat} (hbyte : value.toByte = byte)
    (hroom : output.HasRoom (count + 1))
    (hrest : (workspace.holding rest input (output.append [byte])).Performs instructions after) :
    (workspace.holding (value :: rest) input output).Performs (.print .byte :: instructions)
      after := by
  have hwrite : Sink.write (printed .byte value) output = (.ok (), output.append [byte]) := by
    rw [printed, hbyte]
    exact OutputBuffer.write_of_hasRoom (hroom.mono (Nat.le_add_left 1 count))
  exact .cons ⟨rfl, Instruction.noConfusion⟩ (execute_print _ _ _ _ hwrite) hrest

end Workspace

end LetterMachine
