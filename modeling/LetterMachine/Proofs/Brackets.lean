import LetterMachine.Program.Loops
import Mathlib.Data.Finset.Lattice.Fold
import Mathlib.Data.List.Sort
import Mathlib.Order.Lattice.Nat

/-!
# Open loops of a program

Read from left to right, the brackets of a program keep a stack of loops: `?` opens one and `\`
closes the innermost.  This file ties that stack to the loop table.  The stack before a position is
exactly the list of those `?` before it whose partner is missing or does not come earlier, so all
that a run could learn from its open loops is already written in the table.
-/

namespace LetterMachine

/-- The open loops after an instruction, given those before it, the innermost first. -/
def Instruction.nest (instruction : Instruction) (position : Nat) (opened : List Nat) : List Nat :=
  match instruction with
  | .loopOpen => position :: opened
  | .loopClose => opened.tail
  | _ => opened

theorem Instruction.nest_of_not_bracket {instruction : Instruction}
    (hbracket : instruction.isLoopBracket = false) (position : Nat) (opened : List Nat) :
    instruction.nest position opened = opened := by
  cases instruction <;> first | rfl | cases hbracket

theorem Instruction.eq_or_eq_of_isLoopBracket {instruction : Instruction}
    (hbracket : instruction.isLoopBracket = true) :
    instruction = .loopOpen ∨ instruction = .loopClose := by
  cases instruction <;> simp_all [Instruction.isLoopBracket]

theorem LoopTable.mem_pairsFrom_cons_iff {start close position : Nat} {opened : List Nat}
    {instruction : Instruction} {rest : List Instruction} :
    (start, close) ∈ pairsFrom position opened (instruction :: rest) ↔
      (close = position ∧ instruction = .loopClose ∧ opened.head? = some start) ∨
        (start, close) ∈ pairsFrom (position + 1) (instruction.nest position opened) rest := by
  cases instruction with
  | loopClose =>
      cases opened with
      | nil => simp [pairsFrom, Instruction.nest]
      | cons innermost outer =>
          simp only [pairsFrom, Instruction.nest, List.mem_cons, Prod.mk.injEq, List.head?_cons,
            Option.some.injEq, List.tail_cons, true_and]
          exact or_congr_left ⟨fun ⟨hstart, hclose⟩ => ⟨hclose, hstart.symm⟩,
            fun ⟨hclose, hstart⟩ => ⟨hstart.symm, hclose⟩⟩
  | _ => simp [pairsFrom, Instruction.nest]

namespace Program

variable (program : Program)

/-- The stack of open loops before a position, the innermost first. -/
def stackAt : Nat → List Nat
  | 0 => []
  | position + 1 =>
    match program.get? position with
    | some instruction => instruction.nest position (stackAt position)
    | none => stackAt position

/-- The loops around a position, read off the loop table: they start before it, and their end is
missing or does not come before it. -/
def openLoops (position : Nat) : List Nat :=
  (List.range position).filter fun start =>
    program.get? start = some .loopOpen ∧
      ∀ close ∈ program.loops.partner? start, position ≤ close

/-- The greatest number of loops around a position of the program. -/
def nestingDepth : Nat :=
  (Finset.range (program.size + 1)).sup fun position => (program.openLoops position).length

variable {program}

theorem get?_eq_some_iff {position : Nat} {instruction : Instruction} :
    program.get? position = some instruction ↔
      ∃ hposition : position < program.size, program.instructions[position] = instruction :=
  Array.getElem?_eq_some_iff

theorem lt_size_of_get? {position : Nat} {instruction : Instruction}
    (hget : program.get? position = some instruction) : position < program.size :=
  (get?_eq_some_iff.mp hget).1

theorem get?_eq_none_iff {position : Nat} : program.get? position = none ↔
    program.size ≤ position :=
  Array.getElem?_eq_none_iff

theorem get?_eq_toList_getElem? (position : Nat) :
    program.get? position = program.instructions.toList[position]? := by
  simp [get?]

theorem get?_and_drop_of_drop_eq_cons {position : Nat} {instruction : Instruction}
    {rest : List Instruction}
    (hdrop : program.instructions.toList.drop position = instruction :: rest) :
    program.get? position = some instruction ∧
      program.instructions.toList.drop (position + 1) = rest := by
  constructor
  · rw [get?_eq_toList_getElem?, ← List.head?_drop, hdrop, List.head?_cons]
  · rw [← List.tail_drop, hdrop, List.tail_cons]

theorem stackAt_succ {position : Nat} {instruction : Instruction}
    (hget : program.get? position = some instruction) :
    program.stackAt (position + 1) = instruction.nest position (program.stackAt position) := by
  rw [stackAt, hget]

theorem stackAt_succ_of_end {position : Nat} (hget : program.get? position = none) :
    program.stackAt (position + 1) = program.stackAt position := by
  rw [stackAt, hget]

/-- Every step of the stack keeps its members or adds the position passed. -/
theorem mem_stackAt_succ {start position : Nat}
    (hmem : start ∈ program.stackAt (position + 1)) :
    start ∈ program.stackAt position ∨
      start = position ∧ program.get? position = some .loopOpen := by
  cases hget : program.get? position with
  | none =>
      rw [stackAt_succ_of_end hget] at hmem
      exact Or.inl hmem
  | some instruction =>
      rw [stackAt_succ hget] at hmem
      cases instruction with
      | loopOpen =>
          rcases List.mem_cons.mp hmem with hstart | hmem
          · exact Or.inr ⟨hstart, rfl⟩
          · exact Or.inl hmem
      | loopClose => exact Or.inl (List.mem_of_mem_tail hmem)
      | _ => exact Or.inl hmem

theorem lt_of_mem_stackAt {start position : Nat} (hmem : start ∈ program.stackAt position) :
    start < position := by
  induction position with
  | zero => simp [stackAt] at hmem
  | succ position ih =>
      rcases mem_stackAt_succ hmem with hmem | ⟨rfl, -⟩
      · exact Nat.lt_succ_of_lt (ih hmem)
      · exact Nat.lt_succ_self _

theorem get?_of_mem_stackAt {start position : Nat} (hmem : start ∈ program.stackAt position) :
    program.get? start = some .loopOpen := by
  induction position with
  | zero => simp [stackAt] at hmem
  | succ position ih =>
      rcases mem_stackAt_succ hmem with hmem | ⟨rfl, hget⟩
      · exact ih hmem
      · exact hget

theorem pairwise_stackAt (position : Nat) : (program.stackAt position).Pairwise (· > ·) := by
  induction position with
  | zero => exact List.Pairwise.nil
  | succ position ih =>
      cases hget : program.get? position with
      | none => rwa [stackAt_succ_of_end hget]
      | some instruction =>
          rw [stackAt_succ hget]
          cases instruction with
          | loopOpen => exact List.pairwise_cons.mpr ⟨fun _ hmem => lt_of_mem_stackAt hmem, ih⟩
          | loopClose => exact ih.tail
          | _ => exact ih

/-- The stack under a loop is the stack on which the loop was put. -/
theorem stackAt_of_suffix {start position : Nat} {outer : List Nat}
    (hsuffix : (start :: outer) <:+ program.stackAt position) : program.stackAt start = outer := by
  induction position with
  | zero => simp [stackAt] at hsuffix
  | succ position ih =>
      cases hget : program.get? position with
      | none =>
          rw [stackAt_succ_of_end hget] at hsuffix
          exact ih hsuffix
      | some instruction =>
          rw [stackAt_succ hget] at hsuffix
          cases instruction with
          | loopOpen =>
              rcases List.suffix_cons_iff.mp hsuffix with heq | hsuffix
              · obtain ⟨rfl, rfl⟩ := List.cons.inj heq
                rfl
              · exact ih hsuffix
          | loopClose => exact ih (hsuffix.trans (List.tail_suffix _))
          | _ => exact ih hsuffix

/-- The pairs found from a position on are the ends of loops from there on, each with the loop that
is the innermost before it. -/
theorem mem_pairsFrom_stackAt_iff {start close position : Nat} {rest : List Instruction}
    (hrest : program.instructions.toList.drop position = rest) :
    (start, close) ∈ LoopTable.pairsFrom position (program.stackAt position) rest ↔
      position ≤ close ∧ program.get? close = some .loopClose ∧
        (program.stackAt close).head? = some start := by
  induction rest generalizing position with
  | nil =>
      have hsize : program.size ≤ position := by
        simpa [List.drop_eq_nil_iff, size] using hrest
      simp only [LoopTable.pairsFrom, List.not_mem_nil, false_iff]
      rintro ⟨hposition, hget, -⟩
      have := lt_size_of_get? hget
      omega
  | cons instruction rest ih =>
      obtain ⟨hget, hdrop⟩ := get?_and_drop_of_drop_eq_cons hrest
      rw [LoopTable.mem_pairsFrom_cons_iff, ← stackAt_succ hget, ih hdrop]
      constructor
      · rintro (⟨rfl, rfl, hhead⟩ | ⟨hposition, hclose⟩)
        · exact ⟨le_rfl, hget, hhead⟩
        · exact ⟨Nat.le_of_succ_le hposition, hclose⟩
      · rintro ⟨hposition, hclose, hhead⟩
        rcases Nat.eq_or_lt_of_le hposition with rfl | hposition
        · have hinstruction : instruction = .loopClose := by
            rwa [hget, Option.some.injEq] at hclose
          exact Or.inl ⟨rfl, hinstruction, hhead⟩
        · exact Or.inr ⟨hposition, hclose, hhead⟩

theorem mem_pairs_iff {start close : Nat} : (start, close) ∈ program.loops.pairs ↔
    program.get? close = some .loopClose ∧ (program.stackAt close).head? = some start := by
  have hpairs := @mem_pairsFrom_stackAt_iff program start close 0 _ rfl
  simpa [loops, stackAt] using hpairs

theorem lt_of_mem_pairs {start close : Nat} (hpair : (start, close) ∈ program.loops.pairs) :
    start < close :=
  lt_of_mem_stackAt (List.mem_of_head? (mem_pairs_iff.mp hpair).2)

theorem get?_start_of_mem_pairs {start close : Nat}
    (hpair : (start, close) ∈ program.loops.pairs) : program.get? start = some .loopOpen :=
  get?_of_mem_stackAt (List.mem_of_head? (mem_pairs_iff.mp hpair).2)

/-- A loop that has been closed is on no later stack. -/
theorem not_mem_stackAt_of_mem_pairs {start close position : Nat}
    (hpair : (start, close) ∈ program.loops.pairs) (hposition : close < position) :
    start ∉ program.stackAt position := by
  have hclose := mem_pairs_iff.mp hpair
  induction position, hposition using Nat.le_induction with
  | base =>
      rw [stackAt_succ hclose.1]
      change start ∉ (program.stackAt close).tail
      have hpairwise := program.pairwise_stackAt close
      rw [List.eq_cons_of_mem_head? hclose.2] at hpairwise ⊢
      intro hmem
      exact Nat.lt_irrefl _ ((List.pairwise_cons.mp hpairwise).1 start hmem)
  | succ position hposition ih =>
      intro hmem
      rcases mem_stackAt_succ hmem with hmem | ⟨rfl, -⟩
      · exact ih hmem
      · have := lt_of_mem_pairs hpair
        omega

/-- A loop that has been opened stays on the stack until it is closed. -/
theorem mem_stackAt_of_open {start position : Nat} (hget : program.get? start = some .loopOpen)
    (hstart : start < position)
    (hopen : ∀ close, (start, close) ∈ program.loops.pairs → position ≤ close) :
    start ∈ program.stackAt position := by
  induction position, hstart using Nat.le_induction with
  | base =>
      rw [stackAt_succ hget]
      exact List.mem_cons_self
  | succ position hposition ih =>
      have hmem := ih fun close hpair => Nat.le_of_succ_le (hopen close hpair)
      cases hinstruction : program.get? position with
      | none => rwa [stackAt_succ_of_end hinstruction]
      | some instruction =>
          rw [stackAt_succ hinstruction]
          cases instruction with
          | loopOpen => exact List.mem_cons_of_mem _ hmem
          | loopClose =>
              cases hstack : program.stackAt position with
              | nil => simp [hstack] at hmem
              | cons innermost outer =>
                  rw [hstack] at hmem
                  rcases List.mem_cons.mp hmem with rfl | hmem
                  · have hpair : (start, position) ∈ program.loops.pairs :=
                      mem_pairs_iff.mpr ⟨hinstruction, by rw [hstack, List.head?_cons]⟩
                    exact absurd (hopen position hpair) (Nat.not_succ_le_self position)
                  · exact hmem
          | _ => exact hmem

theorem mem_stackAt_iff {start position : Nat} : start ∈ program.stackAt position ↔
    start < position ∧ program.get? start = some .loopOpen ∧
      ∀ close, (start, close) ∈ program.loops.pairs → position ≤ close := by
  constructor
  · intro hmem
    refine ⟨lt_of_mem_stackAt hmem, get?_of_mem_stackAt hmem, ?_⟩
    intro close hpair
    by_contra hclose
    exact not_mem_stackAt_of_mem_pairs hpair (Nat.lt_of_not_le hclose) hmem
  · rintro ⟨hstart, hget, hopen⟩
    exact mem_stackAt_of_open hget hstart hopen

/-! ## Partners -/

theorem eq_of_mem_pairs_of_start {start close other : Nat}
    (hclose : (start, close) ∈ program.loops.pairs)
    (hother : (start, other) ∈ program.loops.pairs) : close = other := by
  have hmem : ∀ {close}, (start, close) ∈ program.loops.pairs → start ∈ program.stackAt close :=
    fun hpair => List.mem_of_head? (mem_pairs_iff.mp hpair).2
  rcases Nat.lt_trichotomy close other with hlt | heq | hlt
  · exact absurd (hmem hother) (not_mem_stackAt_of_mem_pairs hclose hlt)
  · exact heq
  · exact absurd (hmem hclose) (not_mem_stackAt_of_mem_pairs hother hlt)

theorem eq_of_mem_pairs_of_close {start other close : Nat}
    (hstart : (start, close) ∈ program.loops.pairs)
    (hother : (other, close) ∈ program.loops.pairs) : start = other := by
  have hhead := (mem_pairs_iff.mp hstart).2
  rwa [(mem_pairs_iff.mp hother).2, Option.some.injEq, eq_comm] at hhead

/-- The two ends of a loop are partners, and there are no other partners. -/
theorem partner?_eq_some_iff {position other : Nat} :
    program.loops.partner? position = some other ↔
      (position, other) ∈ program.loops.pairs ∨ (other, position) ∈ program.loops.pairs := by
  have hfound : ∀ {found}, program.loops.partner? position = some found →
      (position, found) ∈ program.loops.pairs ∨ (found, position) ∈ program.loops.pairs := by
    intro found hpartner
    obtain ⟨⟨start, close⟩, hpair, hends⟩ := List.exists_of_findSome?_eq_some hpartner
    simp only at hends
    split_ifs at hends with hstart hclose
    · obtain rfl := Option.some.inj hends
      exact Or.inl (hstart ▸ hpair)
    · obtain rfl := Option.some.inj hends
      exact Or.inr (hclose ▸ hpair)
  have hunique : ∀ {found}, program.loops.partner? position = some found →
      (position, other) ∈ program.loops.pairs ∨ (other, position) ∈ program.loops.pairs →
        found = other := by
    intro found hpartner hpair
    rcases hfound hpartner with hstart | hclose <;> rcases hpair with hstart' | hclose'
    · exact eq_of_mem_pairs_of_start hstart hstart'
    · have hget := get?_start_of_mem_pairs hstart
      rw [(mem_pairs_iff.mp hclose').1] at hget
      simp at hget
    · have hget := get?_start_of_mem_pairs hstart'
      rw [(mem_pairs_iff.mp hclose).1] at hget
      simp at hget
    · exact eq_of_mem_pairs_of_close hclose hclose'
  refine ⟨hfound, ?_⟩
  intro hpair
  cases hpartner : program.loops.partner? position with
  | some found => rw [hunique hpartner hpair]
  | none =>
      have hnone := List.findSome?_eq_none_iff.mp hpartner
      rcases hpair with hpair | hpair
      · simpa using hnone _ hpair
      · have hother := hnone _ hpair
        simp only at hother
        split_ifs at hother

/-- The partner of `?` is the `\` that takes it off the stack. -/
theorem partner?_eq_some_iff_of_open {start close : Nat}
    (hget : program.get? start = some .loopOpen) :
    program.loops.partner? start = some close ↔ (start, close) ∈ program.loops.pairs := by
  rw [partner?_eq_some_iff]
  apply or_iff_left
  intro hpair
  rw [(mem_pairs_iff.mp hpair).1] at hget
  simp at hget

/-- A `?` without a partner is one that is still on the stack at the end of the program. -/
theorem partner?_eq_none_iff_of_open {start : Nat} (hget : program.get? start = some .loopOpen) :
    program.loops.partner? start = none ↔ start ∈ program.stackAt program.size := by
  rw [Option.eq_none_iff_forall_ne_some]
  constructor
  · intro hpartner
    apply mem_stackAt_of_open hget (lt_size_of_get? hget)
    intro close hpair
    exact absurd ((partner?_eq_some_iff_of_open hget).mpr hpair) (hpartner close)
  · intro hmem close hclose
    have hpair := (partner?_eq_some_iff_of_open hget).mp hclose
    have hlt := lt_size_of_get? (mem_pairs_iff.mp hpair).1
    exact not_mem_stackAt_of_mem_pairs hpair hlt hmem

/-- The partner of `\` is the innermost open loop before it. -/
theorem partner?_of_close {close : Nat} (hget : program.get? close = some .loopClose) :
    program.loops.partner? close = (program.stackAt close).head? := by
  ext start
  rw [partner?_eq_some_iff, mem_pairs_iff, mem_pairs_iff]
  constructor
  · rintro (⟨-, hhead⟩ | ⟨-, hhead⟩)
    · have hopen := get?_of_mem_stackAt (List.mem_of_head? hhead)
      rw [hget] at hopen
      simp at hopen
    · exact hhead
  · exact fun hhead => Or.inr ⟨hget, hhead⟩

/-- The loops around a position are the stack before it, read from the outermost loop on. -/
theorem openLoops_eq (position : Nat) :
    program.openLoops position = (program.stackAt position).reverse := by
  have hsorted : (program.openLoops position).Pairwise (· < ·) :=
    List.Pairwise.filter _ List.pairwise_lt_range
  have hstack : (program.stackAt position).reverse.Pairwise (· < ·) :=
    List.pairwise_reverse.mpr (program.pairwise_stackAt position)
  have hmem : ∀ start, start ∈ program.openLoops position ↔
      start ∈ (program.stackAt position).reverse := by
    intro start
    rw [List.mem_reverse, mem_stackAt_iff, openLoops, List.mem_filter, List.mem_range,
      decide_eq_true_eq]
    apply and_congr_right
    intro _
    apply and_congr_right
    intro hget
    apply forall_congr'
    intro close
    rw [Option.mem_def, partner?_eq_some_iff_of_open hget]
  have hperm := (List.perm_ext_iff_of_nodup hsorted.nodup hstack.nodup).mpr hmem
  exact hperm.eq_of_pairwise (fun _ _ _ _ hlt hgt => absurd hlt (Nat.lt_asymm hgt)) hsorted hstack

theorem length_openLoops_le {position : Nat} (hposition : position ≤ program.size) :
    (program.openLoops position).length ≤ program.nestingDepth := by
  have hmem : position ∈ Finset.range (program.size + 1) :=
    Finset.mem_range.mpr (Nat.lt_succ_of_le hposition)
  exact Finset.le_sup (f := fun position => (program.openLoops position).length) hmem

/-! ## Issues -/

theorem mem_issues_iff {issue : StructureIssue} : issue ∈ program.issues ↔
    ∃ position instruction, program.get? position = some instruction ∧
      issueAt? program.loops position instruction = some issue := by
  rw [issues, List.mem_filterMap]
  constructor
  · rintro ⟨⟨instruction, position⟩, hmem, hissue⟩
    rw [List.mk_mem_zipIdx_iff_getElem?, ← get?_eq_toList_getElem?] at hmem
    exact ⟨position, instruction, hmem, hissue⟩
  · rintro ⟨position, instruction, hget, hissue⟩
    rw [get?_eq_toList_getElem?] at hget
    exact ⟨(instruction, position), List.mk_mem_zipIdx_iff_getElem?.mpr hget, hissue⟩

/-- A reported `\` is one that finds no loop on the stack. -/
theorem unmatchedClose_mem_issues_iff {position : Nat} :
    .unmatchedClose position ∈ program.issues ↔
      program.get? position = some .loopClose ∧ program.stackAt position = [] := by
  rw [mem_issues_iff]
  constructor
  · rintro ⟨found, instruction, hget, hissue⟩
    cases instruction with
    | loopClose =>
        rw [issueAt?, partner?_of_close hget] at hissue
        split_ifs at hissue with hhead
        obtain rfl := StructureIssue.unmatchedClose.inj (Option.some.inj hissue)
        exact ⟨hget, by simpa using hhead⟩
    | loopOpen => simp [issueAt?] at hissue
    | _ => simp [issueAt?] at hissue
  · rintro ⟨hget, hstack⟩
    refine ⟨position, .loopClose, hget, ?_⟩
    rw [issueAt?, partner?_of_close hget, hstack]
    rfl

/-- A reported `?` is one that is still on the stack at the end of the program. -/
theorem unclosedOpen_mem_issues_iff {position : Nat} :
    .unclosedOpen position ∈ program.issues ↔ position ∈ program.stackAt program.size := by
  rw [mem_issues_iff]
  constructor
  · rintro ⟨found, instruction, hget, hissue⟩
    cases instruction with
    | loopOpen =>
        rw [issueAt?] at hissue
        split_ifs at hissue with hpartner
        obtain rfl := StructureIssue.unclosedOpen.inj (Option.some.inj hissue)
        exact (partner?_eq_none_iff_of_open hget).mp (by simpa using hpartner)
    | loopClose => simp [issueAt?] at hissue
    | _ => simp [issueAt?] at hissue
  · intro hmem
    have hget := get?_of_mem_stackAt hmem
    refine ⟨position, .loopOpen, hget, ?_⟩
    rw [issueAt?, (partner?_eq_none_iff_of_open hget).mpr hmem]
    rfl

end Program

end LetterMachine
