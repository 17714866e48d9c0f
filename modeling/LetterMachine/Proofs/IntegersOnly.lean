import LetterMachine.Proofs.AsciiText
import LetterMachine.Proofs.InstructionTable
import LetterMachine.Proofs.UnreadInput

/-!
# Runs on integers

Doubles have two ways into a run: a division makes one of any operands, and a token with a point in
it is read as one.  A run that starts on integers, whose program does not divide and whose input has
no point in it, never comes to hold a double.  This needs nothing of the input but that the bytes
that a reading gives are among those that were left to be read, so it is said of every source whose
bytes are known, and `ListedSource` gathers what that means.
-/

namespace LetterMachine

/-- A source whose bytes are known: a reading leaves some of them, and gives some of them. -/
class ListedSource (ι : Type) [Source ι] where
  bytes : ι → List UInt8
  bytes_ask_subset : ∀ (reading : Reading) (source : ι),
    bytes (reading.ask source).2 ⊆ bytes source
  token_subset : ∀ {source : ι} {token : List UInt8},
    (Source.readToken source).1 = .ok (some token) → token ⊆ bytes source

instance : ListedSource ByteStream where
  bytes := ByteStream.bytes
  bytes_ask_subset := by
    intro reading stream
    obtain ⟨count, -, hdrop⟩ := ByteStream.exists_drop_of_ask reading stream
    rw [hdrop]
    exact List.drop_subset count stream.bytes
  token_subset := by
    intro stream token htoken
    have hasToken : asToken ((stream.bytes.dropWhile isSpace).takeWhile (!isSpace ·)) =
        some token := by
      change (stream.readToken).1 = .ok (some token) at htoken
      simp only [ByteStream.readToken] at htoken
      split at htoken
      · cases htoken
      · exact Except.ok.inj htoken
    rw [asToken, Option.ite_none_left_eq_some] at hasToken
    rw [← Option.some.inj hasToken.2]
    exact List.Subset.trans (List.takeWhile_subset _) (List.dropWhile_subset _)

instance {ρ : Type} [PieceReader ρ] : ListedSource ρ where
  bytes reader := (PieceReader.rest reader).bytes
  bytes_ask_subset := by
    intro reading reader
    have hrest := congrArg Prod.snd (PieceReader.rest_ask reading reader)
    rw [Prod.map_snd] at hrest
    rw [hrest]
    exact ListedSource.bytes_ask_subset reading (PieceReader.rest reader)
  token_subset := by
    intro reader token htoken
    have hrest := congrArg Prod.fst (PieceReader.rest_readToken reader)
    rw [Prod.map_fst] at hrest
    exact ListedSource.token_subset (hrest.symm.trans htoken)

/-! ## Results that are integers -/

/-- A program divides if there is a slash in it. -/
theorem Program.div_mem_ofChars_iff {characters : List Char} :
    .operate .div ∈ (ofChars characters).instructions ↔ '/' ∈ characters := by
  have hslash : Instruction.ofChar '/' = .operate .div := by decide
  simp only [ofChars, List.mem_toArray, List.mem_map]
  constructor
  · intro hmem
    obtain ⟨c, hmem, hc⟩ := hmem
    have hsymbol : (Instruction.operate .div).symbol = c := hc ▸ Instruction.symbol_ofChar c
    rwa [← hsymbol] at hmem
  · intro hmem
    exact ⟨'/', hmem, hslash⟩

namespace Value

theorem exists_of_isInteger {value : Value} (hinteger : value.isInteger = true) :
    ∃ number, value = .integer number := by
  cases value with
  | integer number => exact ⟨number, rfl⟩
  | float => cases hinteger

theorem Tells.isInteger {holds : Prop} {value : Value} (htells : value.Tells holds) :
    value.isInteger = true := by
  cases htells <;> rfl

theorem OfInteger.isInteger {number? : Option ℤ} {value : Value}
    (hvalue : value.OfInteger number?) : value.isInteger = true := by
  cases hvalue <;> rfl

end Value

/-- A token without a point is read as an integer. -/
theorem ReadsNumber.isInteger {token? : Option (List UInt8)} {value : Value}
    (hreads : ReadsNumber token? value) (hpoint : ∀ token ∈ token?, point ∉ token) :
    value.isInteger = true := by
  cases hreads with
  | integer _ _ hvalue => exact hvalue.isInteger
  | decimal hmem => exact absurd hmem (hpoint _ rfl)
  | ended => rfl

theorem ReadsByte.isInteger {byte? : Option UInt8} {value : Value}
    (hreads : ReadsByte byte? value) : value.isInteger = true := by
  cases hreads <;> rfl

namespace Operator

/-- The result of an operator other than the division, by its branch for two integers. -/
def onIntegers? (operator : Operator) (left right : Int64) : Option Value :=
  match operator with
  | .add => some (.integer (left + right))
  | .sub => some (.integer (left - right))
  | .mul => some (.integer (left * right))
  | .rem => if right = 0 then none else some (.integer (left % right))
  | .eq => some (.ofBool (left == right))
  | .gt => some (.ofBool (decide (right < left)))
  | .lt => some (.ofBool (decide (left < right)))
  | .and => some (.ofBool (left != 0 && right != 0))
  | .or => some (.ofBool (left != 0 || right != 0))
  | .div => none

theorem result?_eq_onIntegers? {operator : Operator} (hdiv : operator ≠ .div)
    (left right : Int64) :
    operator.result? (.integer left) (.integer right) = operator.onIntegers? left right := by
  cases operator with
  | div => exact absurd rfl hdiv
  | _ => rfl

/-- No operator but the division makes a double of integers. -/
theorem Results.isInteger {operator : Operator} {left right result : Value}
    (hresults : operator.Results left right result) (hdiv : operator ≠ .div)
    (hleft : left.isInteger = true) (hright : right.isInteger = true) :
    result.isInteger = true := by
  cases hresults with
  | integers => rfl
  | doubles _ hkinds => simp [hdiv, hleft, hright] at hkinds
  | compareIntegers _ _ _ htells | compareDoubles _ _ _ _ htells | connective _ htells =>
      exact htells.isInteger

end Operator

/-! ## Registers that hold integers -/

/-- Every value of a list is an integer. -/
def AllIntegers (values : List Value) : Prop :=
  ∀ value ∈ values, value.isInteger = true

theorem allIntegers_cons {value : Value} {values : List Value} :
    AllIntegers (value :: values) ↔ value.isInteger = true ∧ AllIntegers values :=
  List.forall_mem_cons

theorem StoresText.allIntegers {bytes : List UInt8} {values : List Value}
    (hreads : StoresText bytes values) : AllIntegers values := by
  obtain ⟨hvalues⟩ := hreads
  refine List.forall_mem_append.mpr ⟨?_, List.forall_mem_singleton.mpr rfl⟩
  induction hvalues with
  | nil => exact List.forall_mem_nil _
  | cons hbyte _ ih => exact List.forall_mem_cons.mpr ⟨hbyte.isInteger, ih⟩

/-- Every value of every register is an integer. -/
def Bank.HoldsIntegers (bank : Bank) : Prop :=
  ∀ letter, AllIntegers (bank.get letter).toList

theorem Bank.holdsIntegers_empty : empty.HoldsIntegers := by
  intro letter
  rw [get_empty, Deque.empty, Deque.toList_ofList]
  exact List.forall_mem_nil _

theorem Bank.HoldsIntegers.set {bank : Bank} (hbank : bank.HoldsIntegers) {letter : Letter}
    {register : Register} (hregister : AllIntegers register.toList) :
    (bank.set letter register).HoldsIntegers := by
  intro place
  by_cases hletter : letter = place
  · subst hletter
    rwa [get_set_self]
  · rw [get_set_of_ne _ hletter]
    exact hbank place

namespace Workspace

variable {ι ο : Type} {before after : Workspace ι ο} {instruction : Instruction}

theorem holdsIntegers_withValues (hbank : before.bank.HoldsIntegers) (letter : Letter)
    {values : List Value} (hvalues : AllIntegers values) :
    (before.withValues letter values).bank.HoldsIntegers := by
  apply hbank.set
  rwa [Deque.toList_ofList]

theorem Rearranges.subset {kind : Shuffle} {values left : List Value}
    (hrearranges : Rearranges kind values left) : left ⊆ values := by
  cases hrearranges <;> simp

theorem holdsIntegers_takeCondition (hbank : before.bank.HoldsIntegers) :
    before.takeCondition.2.bank.HoldsIntegers := by
  unfold takeCondition
  cases hpop : before.contents.popFront? with
  | none => exact hbank
  | some taken =>
      have hvalues : AllIntegers before.contents.toList := hbank before.active
      rw [Deque.toList_of_popFront? hpop, allIntegers_cons] at hvalues
      exact hbank.set hvalues.2

variable [Source ι] [Sink ο]

/-- The table makes no double of integers, but for the division and for a token with a point. -/
theorem Effect.holdsIntegers (heffect : before.Effect instruction after)
    (hdiv : instruction ≠ .operate .div) (hbank : before.bank.HoldsIntegers)
    (htoken : ∀ token, (Source.readToken before.input).1 = .ok (some token) → point ∉ token) :
    after.bank.HoldsIntegers := by
  have hall : AllIntegers before.values := hbank before.active
  cases heffect with
  | select | transferBack | nop => exact hbank
  | @transfer target a rest hvalues =>
      rw [hvalues, allIntegers_cons] at hall
      have htarget := allIntegers_cons.mpr ⟨hall.1, hbank target⟩
      exact holdsIntegers_withValues (holdsIntegers_withValues hbank _ hall.2) target htarget
  | digit value => exact holdsIntegers_withValues hbank _ (allIntegers_cons.mpr ⟨rfl, hall⟩)
  | shuffle hrearranges =>
      exact holdsIntegers_withValues hbank _ fun value hmem => hall value (hrearranges.subset hmem)
  | @operate operator a b result rest hvalues hresult =>
      rw [hvalues, allIntegers_cons, allIntegers_cons] at hall
      have hoperator : operator ≠ .div := fun heq => hdiv (congrArg _ heq)
      have hinteger := hresult.isInteger hoperator hall.2.1 hall.1
      exact holdsIntegers_withValues hbank _ (allIntegers_cons.mpr ⟨hinteger, hall.2.2⟩)
  | not hvalues hresult =>
      rw [hvalues, allIntegers_cons] at hall
      exact holdsIntegers_withValues hbank _ (allIntegers_cons.mpr ⟨hresult.isInteger, hall.2⟩)
  | print hvalues =>
      rw [hvalues, allIntegers_cons] at hall
      exact holdsIntegers_withValues hbank _ hall.2
  | number hread hvalue =>
      have hnumber := hvalue.isInteger fun token hsome =>
        htoken token ((congrArg Prod.fst hread).trans (congrArg _ hsome))
      exact holdsIntegers_withValues hbank _ (allIntegers_cons.mpr ⟨hnumber, hall⟩)
  | byte hread hvalue =>
      exact holdsIntegers_withValues hbank _ (allIntegers_cons.mpr ⟨hvalue.isInteger, hall⟩)
  | token hvalues _ _ htext | text hvalues _ _ _ htext =>
      rw [hvalues, allIntegers_cons] at hall
      exact holdsIntegers_withValues hbank _
        (List.forall_mem_append.mpr ⟨htext.allIntegers, hall.2⟩)

theorem Fails.holdsIntegers {fault : Fault} (hfails : before.Fails fault instruction after)
    (hbank : before.bank.HoldsIntegers) : after.bank.HoldsIntegers := by
  cases hoperand : instruction.takesOperand with
  | false => rwa [hfails.bank_eq hoperand]
  | true =>
      obtain ⟨operand, rest, hpop, hafter⟩ := hfails.exists_operand hoperand
      have hvalues : AllIntegers before.contents.toList := hbank before.active
      rw [Deque.toList_of_popFront? hpop, allIntegers_cons] at hvalues
      rw [hafter]
      exact hbank.set hvalues.2

theorem execute_of_not_isPlain (hplain : ¬Run.IsPlain instruction) :
    before.execute instruction = (before, none) := by
  cases instruction with
  | loopOpen | loopClose | leave => rfl
  | _ => exact absurd ⟨rfl, nofun⟩ hplain

/-- An instruction makes no double of integers, whether it fails or not. -/
theorem holdsIntegers_execute (hdiv : instruction ≠ .operate .div)
    (hbank : before.bank.HoldsIntegers)
    (htoken : ∀ token, (Source.readToken before.input).1 = .ok (some token) → point ∉ token) :
    (before.execute instruction).1.bank.HoldsIntegers := by
  rcases hexecute : before.execute instruction with ⟨after, mishap?⟩
  cases mishap? with
  | some mishap =>
      cases mishap with
      | remainderByZero => rwa [eq_of_execute_fails hexecute]
      | io fault => exact (fails_of_execute hexecute).holdsIntegers hbank
  | none =>
      by_cases hneeds : instruction.needs ≤ before.values.length
      · by_cases hplain : Run.IsPlain instruction
        · exact (effect_execute hplain hneeds hexecute).holdsIntegers hdiv hbank htoken
        · rw [execute_of_not_isPlain hplain] at hexecute
          cases hexecute
          exact hbank
      · rw [execute_of_starved (Nat.lt_of_not_le hneeds)] at hexecute
        cases hexecute
        exact hbank

end Workspace

/-! ## Runs -/

namespace Run

variable {ι ο : Type} [Source ι] [ListedSource ι] [Sink ο]

/-- All registers hold integers, and there is no point left to read. -/
structure WithoutDoubles (run : Run ι ο) : Prop where
  bank : run.workspace.bank.HoldsIntegers
  input : point ∉ ListedSource.bytes run.workspace.input

variable {program : Program} {run : Run ι ο}

omit [Source ι] [ListedSource ι] [Sink ο] in
theorem Ready.ne_div {instruction : Instruction} (hready : run.Ready program instruction)
    (hdiv : .operate .div ∉ program.instructions) : instruction ≠ .operate .div := by
  rintro rfl
  exact hdiv (Array.mem_of_getElem? hready.get?_eq)

theorem WithoutDoubles.next (hrun : run.WithoutDoubles)
    (hdiv : .operate .div ∉ program.instructions) : (run.next program).1.WithoutDoubles := by
  obtain hsame | htake | hexecute := run.workspace_next program
  · exact ⟨hsame ▸ hrun.bank, hsame ▸ hrun.input⟩
  · constructor
    · rw [htake]
      exact Workspace.holdsIntegers_takeCondition hrun.bank
    · rw [htake, Workspace.input_takeCondition]
      exact hrun.input
  · obtain ⟨instruction, hready, hexecute⟩ := hexecute
    constructor
    · rw [hexecute]
      apply Workspace.holdsIntegers_execute (hready.ne_div hdiv) hrun.bank
      intro token htoken hpoint
      exact hrun.input (ListedSource.token_subset htoken hpoint)
    · rw [hexecute, Workspace.input_execute, Workspace.inputAfter]
      cases run.workspace.reading? instruction with
      | none => exact hrun.input
      | some reading =>
          intro hpoint
          exact hrun.input (ListedSource.bytes_ask_subset reading _ hpoint)

theorem WithoutDoubles.after (hrun : run.WithoutDoubles)
    (hdiv : .operate .div ∉ program.instructions) (count : Nat) :
    (run.after program count).WithoutDoubles := by
  induction count with
  | zero => exact hrun
  | succ count ih =>
      rw [after_succ]
      exact ih.next hdiv

/-- **Integers stay integers**, in every register and after any number of transitions, if the
program does not divide and the input has no point in it.  All operators then have integers to work
on, and their results are those of the branch for integers. -/
theorem integers_only (program : Program) (machine : Machine) (input : ι) (output : ο)
    (hdiv : .operate .div ∉ program.instructions) (hbank : machine.bank.HoldsIntegers)
    (hpoint : point ∉ ListedSource.bytes input) (count : Nat) :
    let run := (machine.start input output).after program count
    run.workspace.bank.HoldsIntegers ∧
      ∀ operator right left rest, run.Ready program (.operate operator) →
        run.workspace.values = right :: left :: rest →
        ∃ a b, left = .integer a ∧ right = .integer b ∧
          operator.result? left right = operator.onIntegers? a b := by
  intro run
  have hstart : (machine.start input output).WithoutDoubles := ⟨hbank, hpoint⟩
  have hrun : run.WithoutDoubles := hstart.after hdiv count
  refine ⟨hrun.bank, ?_⟩
  intro operator right left rest hready hvalues
  have hall : AllIntegers run.workspace.values := hrun.bank run.workspace.active
  rw [hvalues, allIntegers_cons, allIntegers_cons] at hall
  obtain ⟨a, rfl⟩ := Value.exists_of_isInteger hall.2.1
  obtain ⟨b, rfl⟩ := Value.exists_of_isInteger hall.1
  have hoperator : operator ≠ .div := fun heq => hready.ne_div hdiv (congrArg _ heq)
  exact ⟨a, b, rfl, rfl, Operator.result?_eq_onIntegers? hoperator a b⟩

/-- A token that is neither a number as a whole nor text as a whole is read as an integer. -/
theorem integers_only_of_damaged_token :
    let program := Program.ofChars ['\x60', '3', '%']
    let input : ByteStream := ⟨[0x38, 0xC3, 0x28], false⟩
    let run := ((Machine.start {} input {} : Run ByteStream OutputBuffer)).after program 3
    run.status = .working ∧ run.workspace.bank.HoldsIntegers ∧
      run.workspace.values = [.integer 2] := by
  intro program input run
  have hdiv := Program.div_mem_ofChars_iff.not.mpr (by decide : '/' ∉ ['\x60', '3', '%'])
  have hpoint : point ∉ ListedSource.bytes input := by decide
  have hintegers := integers_only program {} input ({} : OutputBuffer) hdiv
    Bank.holdsIntegers_empty hpoint 3
  exact ⟨rfl, hintegers.1, by decide⟩

end Run

end LetterMachine
