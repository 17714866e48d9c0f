import LetterMachine.Proofs.UnmatchedClose

/-!
# Failures that leave everything as it was

Apart from the source and the sink, a run has three ways to fail: at the remainder of two integers
of which the right one is zero, at the end of a loop when none is open, and for want of steps.  Each
of them is described exactly, and none has an effect: the run is left as it stood before the
instruction, with at most one more step counted.
-/

namespace LetterMachine

/-- Every operator has a result on all operands, but for the remainder of integers by zero. -/
theorem Operator.result?_eq_none_iff {operator : Operator} {left right : Value} :
    operator.result? left right = none ↔
      operator = .rem ∧ ∃ number, left = .integer number ∧ right = .integer 0 := by
  cases operator with
  | rem => cases left <;> cases right <;> simp [result?, Value.combine]
  | _ => simp [result?]

example : Operator.rem.result? (.integer Int64.minValue) (.integer (-1)) = some (.integer 0) := by
  decide

namespace Workspace

variable {ι ο : Type} {workspace after : Workspace ι ο} {instruction : Instruction}

theorem operate_fails_iff {operator : Operator} :
    (workspace.operate operator).2 = some .remainderByZero ↔
      operator = .rem ∧ ∃ number rest,
        workspace.contents.toList = .integer 0 :: .integer number :: rest := by
  obtain ⟨values, hvalues⟩ := Deque.exists_eq_ofList workspace.contents
  rw [operate, hvalues, Deque.toList_ofList]
  match values with
  | [] => simp
  | [value] => simp
  | right :: left :: rest =>
      rw [Register.takePair?_ofList_cons_cons]
      cases hresult : operator.result? left right with
      | none =>
          obtain ⟨rfl, number, rfl, rfl⟩ := Operator.result?_eq_none_iff.mp hresult
          simp [hresult]
      | some result =>
          simp only [hresult]
          constructor
          · nofun
          · intro hzero
            obtain ⟨rfl, number, more, hcons⟩ := hzero
            cases hcons
            rw [Operator.result?_eq_none_iff.mpr ⟨rfl, number, rfl, rfl⟩] at hresult
            cases hresult

theorem eq_of_operate_fails {operator : Operator} {mishap : Mishap}
    (hfails : workspace.operate operator = (after, some mishap)) : after = workspace := by
  unfold operate at hfails
  split at hfails
  · cases hfails
  · split at hfails <;> cases hfails
    rfl

theorem afterReading_ne_remainderByZero {result : Type} (reading : Except Fault result × ι)
    (use : Workspace ι ο → result → Workspace ι ο) :
    (workspace.afterReading reading use).2 ≠ some .remainderByZero := by
  obtain ⟨outcome, input⟩ := reading
  cases outcome <;> nofun

variable [Source ι] [Sink ο]

omit [Sink ο] in
theorem read_ne_remainderByZero (form : ReadForm) :
    (workspace.read form).2 ≠ some .remainderByZero := by
  cases form with
  | number | byte => exact afterReading_ne_remainderByZero _ _
  | text =>
      simp only [read, readText]
      split
      · nofun
      · split <;> exact afterReading_ne_remainderByZero _ _

omit [Source ι] in
theorem print_ne_remainderByZero (form : PrintForm) :
    (workspace.print form).2 ≠ some .remainderByZero := by
  simp only [print]
  split
  · nofun
  · split <;> nofun

/-- Only a remainder of integers by zero fails on the registers. -/
theorem execute_fails_iff :
    (workspace.execute instruction).2 = some .remainderByZero ↔
      instruction = .operate .rem ∧ ∃ number rest,
        workspace.contents.toList = .integer 0 :: .integer number :: rest := by
  cases instruction with
  | operate operator => simpa [execute] using operate_fails_iff
  | print form => simpa [execute] using print_ne_remainderByZero form
  | read form => simpa [execute] using read_ne_remainderByZero form
  | _ => simp [execute]

theorem eq_of_execute_fails
    (hfails : workspace.execute instruction = (after, some .remainderByZero)) :
    after = workspace := by
  have hinstruction := (execute_fails_iff.mp (congrArg Prod.snd hfails)).1
  subst hinstruction
  exact eq_of_operate_fails hfails

end Workspace

namespace Run

variable {ι ο : Type} [Source ι] [Sink ο] {program : Program} {run : Run ι ο}

/-! ## When a run fails -/

theorem remainder_of_status_next {position : Nat} (hworking : run.status = .working)
    (hfailed : (run.next program).1.status = .failed (.remainderByZero position)) :
    run.control.position = position ∧ run.Ready program (.operate .rem) ∧
      run.control.mode = .running ∧ ∃ number rest,
        run.workspace.contents.toList = .integer 0 :: .integer number :: rest := by
  have htransition := run.next_transition program
  generalize run.next program = next at hfailed htransition
  cases htransition with
  | ended hended => exact absurd hworking hended
  | halt | exhausted | unmatched => cases hfailed
  | @mishap instruction workspace mishap hready hmode _ hexecute =>
      cases mishap with
      | io fault => cases hfailed
      | remainderByZero =>
          cases hfailed
          obtain ⟨rfl, hzero⟩ := Workspace.execute_fails_iff.mp (congrArg Prod.snd hexecute)
          exact ⟨rfl, hready, hmode, hzero⟩
  | skip | enter | pass | back | leave | plain =>
      rw [hworking] at hfailed
      cases hfailed

theorem status_next_of_remainder (hready : run.Ready program (.operate .rem))
    (hmode : run.control.mode = .running)
    (hzero : ∃ number rest,
      run.workspace.contents.toList = .integer 0 :: .integer number :: rest) :
    (run.next program).1.status = .failed (.remainderByZero run.control.position) := by
  have hfails := Workspace.execute_fails_iff.mpr ⟨rfl, hzero⟩
  rw [next_of_ready hready]
  rcases hexecute : run.workspace.execute (.operate .rem) with ⟨workspace, mishap?⟩
  rw [hexecute] at hfails
  subst hfails
  simp only [step, hmode, execute, executePlain, hexecute]
  rfl

/-- A run wants for steps exactly if there is an instruction left when the limit is used up. -/
theorem stepsExhausted_iff {limit : Nat} (hworking : run.status = .working) :
    (run.next program).1.status = .failed (.stepsExhausted limit) ↔
      run.limit = some limit ∧ limit ≤ run.control.steps ∧
        ∃ instruction, program.get? run.control.position = some instruction := by
  have hexhausted : run.exhausted? = some limit ↔
      run.limit = some limit ∧ limit ≤ run.control.steps := by
    simp [exhausted?]
  rw [← and_assoc, ← hexhausted]
  constructor
  · intro hfailed
    have htransition := run.next_transition program
    generalize run.next program = next at hfailed htransition
    cases htransition with
    | ended hended => exact absurd hworking hended
    | halt | unmatched => cases hfailed
    | exhausted _ hget hlimit =>
        cases hfailed
        exact ⟨hlimit, _, hget⟩
    | @mishap _ _ mishap => cases mishap <;> cases hfailed
    | skip | enter | pass | back | leave | plain =>
        rw [hworking] at hfailed
        cases hfailed
  · intro hlimit
    obtain ⟨hlimit, instruction, hget⟩ := hlimit
    rw [next_of_exhausted hworking hget hlimit]
    rfl

/-! ## What is left -/

/-- A failure that has nothing to do with the source or the sink changes nothing but the status and
the count of steps. -/
theorem unaffected_of_failure {failure : Failure} (hworking : run.status = .working)
    (hfailed : (run.next program).1.status = .failed failure)
    (hclean : ∀ fault, failure ≠ .io fault) :
    (run.next program).1.workspace = run.workspace ∧
      (run.next program).1.control =
        { run.control with steps := (run.next program).1.control.steps } := by
  have htransition := run.next_transition program
  generalize run.next program = next at hfailed htransition
  cases htransition with
  | ended hended => exact absurd hworking hended
  | halt => cases hfailed
  | exhausted | unmatched => exact ⟨rfl, rfl⟩
  | @mishap _ _ mishap _ _ _ hexecute =>
      cases mishap with
      | io fault =>
          cases hfailed
          exact absurd rfl (hclean fault)
      | remainderByZero => exact ⟨Workspace.eq_of_execute_fails hexecute, rfl⟩
  | skip | enter | pass | back | leave | plain =>
      rw [hworking] at hfailed
      cases hfailed

/-- **Failures that have nothing to do with the source or the sink** occur under exactly these
conditions, and leave everything as it was.  A run that ends with one of them ends as it stood
before the instruction that failed. -/
theorem clean_failures (program : Program) {run : Run ι ο} (hworking : run.status = .working) :
    (∀ position, (run.next program).1.status = .failed (.remainderByZero position) ↔
      run.control.position = position ∧ run.Ready program (.operate .rem) ∧
        run.control.mode = .running ∧ ∃ number rest,
          run.workspace.contents.toList = .integer 0 :: .integer number :: rest) ∧
    (∀ position, (run.next program).1.status = .failed (.unmatchedLoopClose position) ↔
      run.control.position = position ∧ run.Ready program .loopClose ∧
        run.control.mode = .running ∧ run.control.opened = []) ∧
    (∀ limit, (run.next program).1.status = .failed (.stepsExhausted limit) ↔
      run.limit = some limit ∧ limit ≤ run.control.steps ∧
        ∃ instruction, program.get? run.control.position = some instruction) ∧
    (∀ failure, (run.next program).1.status = .failed failure →
      (∀ fault, failure ≠ .io fault) →
      (run.next program).1.workspace = run.workspace ∧
        (run.next program).1.control =
          { run.control with steps := (run.next program).1.control.steps }) ∧
    (∀ last failure, run.Ends program last → last.status = .failed failure →
      (∀ fault, failure ≠ .io fault) →
      ∃ count, (run.after program count).status = .working ∧
        last.workspace = (run.after program count).workspace ∧
        last.control =
          { (run.after program count).control with steps := last.control.steps }) := by
  refine ⟨?_, ?_, fun _ => stepsExhausted_iff hworking, fun _ => unaffected_of_failure hworking, ?_⟩
  · intro position
    constructor
    · exact remainder_of_status_next hworking
    · intro hfails
      obtain ⟨rfl, hready, hmode, hzero⟩ := hfails
      exact status_next_of_remainder hready hmode hzero
  · intro position
    constructor
    · intro hfailed
      obtain ⟨hready, hmode, hopened, hposition⟩ := unmatched_of_status_next hworking hfailed
      exact ⟨hposition, hready, hmode, hopened⟩
    · intro hfails
      obtain ⟨rfl, hready, hmode, hopened⟩ := hfails
      exact status_next_of_unmatched hready hmode hopened
  · intro last failure hends hfailed hclean
    obtain ⟨hended, count, rfl⟩ := hends
    obtain ⟨earlier, -, hbefore, hlast⟩ := exists_ending_transition hworking hended
    rw [hlast, after_succ] at hfailed ⊢
    exact ⟨earlier, hbefore, unaffected_of_failure hbefore hfailed hclean⟩

/-- A remainder by zero leaves both of its operands in their places. -/
theorem clean_failure_of_remainder :
    let program := Program.ofChars ['5', '0', '%']
    let start : Run ByteStream OutputBuffer := Machine.start {} ⟨[], false⟩ ⟨none, []⟩
    let run := start.after program 2
    run.status = .working ∧ (run.next program).1.status = .failed (.remainderByZero 2) ∧
      (run.next program).1.workspace = run.workspace ∧
      run.workspace.contents.toList = [.integer 0, .integer 5] := by
  intro program start run
  have hworking : run.status = .working := rfl
  have hcontents : run.workspace.contents.toList = [.integer 0, .integer 5] := by decide
  obtain ⟨hremainder, -, -, hunaffected, -⟩ := clean_failures program hworking
  have hready : run.Ready program (.operate .rem) := ⟨rfl, rfl, rfl⟩
  have hfailed := (hremainder 2).mpr ⟨rfl, hready, rfl, 5, [], hcontents⟩
  have hsame := (hunaffected _ hfailed (fun _ => nofun)).1
  exact ⟨hworking, hfailed, hsame, hcontents⟩

end Run

end LetterMachine
