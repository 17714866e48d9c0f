import LetterMachine.Proofs.Brackets

/-!
# Programs as trees

A program in which every bracket has a partner is a tree of instructions and loops.  The tree is
read off the program from its end on, and it is the only one that is written as this program.
-/

namespace LetterMachine

/-- A sequence of instructions and loops. -/
inductive Block where
  | done
  | plain (instruction : Instruction) (hbracket : instruction.isLoopBracket = false) (rest : Block)
  | loop (body rest : Block)

namespace Block

/-- The instructions that a block is written as. -/
def instructions : Block → List Instruction
  | .done => []
  | .plain instruction _ rest => instruction :: rest.instructions
  | .loop body rest => .loopOpen :: (body.instructions ++ .loopClose :: rest.instructions)

def size : Block → Nat
  | .done => 0
  | .plain _ _ rest => rest.size + 1
  | .loop body rest => body.size + rest.size + 2

/-- Reads a block from its last instruction on.  The blocks after those `\` whose `?` has not come
up yet are kept for the loops that end there, the innermost first. -/
def parse : List Instruction → Option (Block × List Block)
  | [] => some (.done, [])
  | instruction :: rest =>
    match parse rest with
    | none => none
    | some (block, outer) =>
      if hbracket : instruction.isLoopBracket = false then
        some (.plain instruction hbracket block, outer)
      else if instruction = .loopClose then
        some (.done, block :: outer)
      else
        match outer with
        | [] => none
        | following :: outer => some (.loop block following, outer)

@[simp]
theorem length_instructions (block : Block) : block.instructions.length = block.size := by
  induction block with
  | done => rfl
  | plain instruction hbracket rest ih => rw [instructions, List.length_cons, ih, size]
  | loop body rest ihbody ihrest =>
      rw [instructions, List.length_cons, List.length_append, List.length_cons, ihbody, ihrest,
        size]
      omega

theorem parse_cons_plain {instruction : Instruction} {rest : List Instruction} {block : Block}
    {outer : List Block} (hbracket : instruction.isLoopBracket = false)
    (hparse : parse rest = some (block, outer)) :
    parse (instruction :: rest) = some (.plain instruction hbracket block, outer) := by
  rw [parse, hparse]
  exact dif_pos hbracket

theorem parse_cons_loopClose {rest : List Instruction} {block : Block} {outer : List Block}
    (hparse : parse rest = some (block, outer)) :
    parse (.loopClose :: rest) = some (.done, block :: outer) := by
  rw [parse, hparse]
  rfl

theorem parse_cons_loopOpen {rest : List Instruction} {block following : Block}
    {outer : List Block} (hparse : parse rest = some (block, following :: outer)) :
    parse (.loopOpen :: rest) = some (.loop block following, outer) := by
  rw [parse, hparse]
  rfl

/-- A block is read back from its instructions, whatever closed loops come after it. -/
theorem parse_instructions_append (block : Block) {rest : List Instruction} {outer : List Block}
    (hparse : parse rest = some (.done, outer)) :
    parse (block.instructions ++ rest) = some (block, outer) := by
  induction block generalizing rest outer with
  | done => exact hparse
  | plain instruction hbracket following ih => exact parse_cons_plain hbracket (ih hparse)
  | loop body following ihbody ihfollowing =>
      have hclose := parse_cons_loopClose (ihfollowing hparse)
      have hopen := parse_cons_loopOpen (ihbody hclose)
      simpa [instructions] using hopen

theorem instructions_injective : Function.Injective instructions := by
  intro left right heq
  have hleft := @parse_instructions_append left [] [] rfl
  have hright := @parse_instructions_append right [] [] rfl
  rw [heq, hright, Option.some.injEq] at hleft
  exact (Prod.mk.inj hleft).1.symm

/-- What has been read is what was written. -/
theorem instructions_of_parse {list : List Instruction} {block : Block} {outer : List Block}
    (hparse : parse list = some (block, outer)) :
    list = block.instructions ++
      outer.flatMap fun following => .loopClose :: following.instructions := by
  induction list generalizing block outer with
  | nil =>
      obtain ⟨rfl, rfl⟩ := Prod.mk.inj (Option.some.inj hparse)
      rfl
  | cons instruction rest ih =>
      rw [parse] at hparse
      split at hparse
      · cases hparse
      · rename_i block' outer' hrest
        rw [ih hrest]
        split_ifs at hparse with hbracket hclose
        · obtain ⟨rfl, rfl⟩ := Prod.mk.inj (Option.some.inj hparse)
          rfl
        · obtain ⟨rfl, rfl⟩ := Prod.mk.inj (Option.some.inj hparse)
          rw [hclose]
          rfl
        · have hopen : instruction = .loopOpen := by
            have hsome := Instruction.eq_or_eq_of_isLoopBracket (by simpa using hbracket)
            exact hsome.resolve_right hclose
          split at hparse
          · cases hparse
          · obtain ⟨rfl, rfl⟩ := Prod.mk.inj (Option.some.inj hparse)
            rw [hopen]
            simp [instructions]

end Block

namespace Program

variable {program : Program}

/-- The tree of a program, if every bracket has a partner. -/
def block? (program : Program) : Option Block :=
  match Block.parse program.instructions.toList with
  | some (block, []) => some block
  | _ => none

/-- Reading from a position on leaves one block for each loop on the stack. -/
theorem exists_parse_drop (hissues : program.issues = []) {position : Nat}
    {rest : List Instruction} (hrest : program.instructions.toList.drop position = rest)
    (hposition : position ≤ program.size) :
    ∃ block outer, Block.parse rest = some (block, outer) ∧
      outer.length = (program.stackAt position).length := by
  induction rest generalizing position with
  | nil =>
      have hend : position = program.size := by
        have hle : program.size ≤ position := by
          simpa [List.drop_eq_nil_iff, size] using hrest
        exact hposition.antisymm hle
      have hstack : program.stackAt program.size = [] := by
        apply List.eq_nil_iff_forall_not_mem.mpr
        intro start hmem
        have hreported := unclosedOpen_mem_issues_iff.mpr hmem
        simp [hissues] at hreported
      rw [hend, hstack]
      exact ⟨.done, [], rfl, rfl⟩
  | cons instruction rest ih =>
      obtain ⟨hget, hdrop⟩ := get?_and_drop_of_drop_eq_cons hrest
      obtain ⟨block, outer, hparse, hlength⟩ := ih hdrop (lt_size_of_get? hget)
      rw [stackAt_succ hget] at hlength
      by_cases hbracket : instruction.isLoopBracket = false
      · rw [Instruction.nest_of_not_bracket hbracket] at hlength
        exact ⟨_, outer, Block.parse_cons_plain hbracket hparse, hlength⟩
      · rcases Instruction.eq_or_eq_of_isLoopBracket (by simpa using hbracket) with rfl | rfl
        · obtain ⟨following, outer', rfl⟩ := List.exists_cons_of_length_eq_add_one hlength
          exact ⟨_, outer', Block.parse_cons_loopOpen hparse, Nat.succ.inj hlength⟩
        · have hstack : program.stackAt position ≠ [] := by
            intro hnil
            have hreported := unmatchedClose_mem_issues_iff.mpr ⟨hget, hnil⟩
            simp [hissues] at hreported
          obtain ⟨innermost, around, hcons⟩ := List.exists_cons_of_ne_nil hstack
          rw [hcons] at hlength ⊢
          exact ⟨.done, block :: outer, Block.parse_cons_loopClose hparse,
            congrArg Nat.succ hlength⟩

/-- A program without issues has a tree, and is what the tree is written as. -/
theorem exists_block (hissues : program.issues = []) :
    ∃ block, program.block? = some block ∧ block.instructions = program.instructions.toList := by
  obtain ⟨block, outer, hparse, hlength⟩ := exists_parse_drop hissues rfl (Nat.zero_le _)
  obtain rfl := List.eq_nil_of_length_eq_zero hlength
  rw [List.drop_zero] at hparse
  refine ⟨block, ?_, ?_⟩
  · rw [block?, hparse]
  · rw [Block.instructions_of_parse hparse, List.flatMap_nil, List.append_nil]

end Program

end LetterMachine
