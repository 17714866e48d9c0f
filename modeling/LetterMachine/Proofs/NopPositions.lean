import LetterMachine.Proofs.Brackets
import Mathlib.Data.Nat.Nth

/-!
# Programs without their nops

The instructions that have no effect can be left out of a program.  The others stay, in their order,
and come to stand closer together.  `Program.rank` gives the new position of an instruction that
stays, and `Program.origin` leads back from it; positions behind the end are taken along.  The
brackets pair as they did, so the loop table and the issues of the program are those of the shorter
one, with every position led back to its origin.
-/

namespace LetterMachine

theorem Instruction.nest_map (positions : Nat → Nat) (instruction : Instruction) (position : Nat)
    (opened : List Nat) :
    instruction.nest (positions position) (opened.map positions) =
      (instruction.nest position opened).map positions := by
  cases instruction <;> simp [nest]

/-- The loop that ends with an instruction, if one does. -/
def Instruction.ended (instruction : Instruction) (position : Nat) (opened : List Nat) :
    List (Nat × Nat) :=
  match instruction with
  | .loopClose => (opened.head?.map fun start => (start, position)).toList
  | _ => []

theorem Instruction.ended_map (positions : Nat → Nat) (instruction : Instruction) (position : Nat)
    (opened : List Nat) :
    instruction.ended (positions position) (opened.map positions) =
      (instruction.ended position opened).map (Prod.map positions positions) := by
  cases instruction with
  | loopClose => cases opened <;> rfl
  | _ => rfl

theorem Instruction.exists_of_isNop {instruction : Instruction} (hnop : instruction.isNop = true) :
    ∃ character, instruction = .nop character := by
  cases instruction with
  | nop character => exact ⟨character, rfl⟩
  | _ => cases hnop

theorem LoopTable.pairsFrom_cons (position : Nat) (opened : List Nat) (instruction : Instruction)
    (rest : List Instruction) :
    pairsFrom position opened (instruction :: rest) = instruction.ended position opened ++
      pairsFrom (position + 1) (instruction.nest position opened) rest := by
  cases instruction with
  | loopClose => cases opened <;> rfl
  | _ => rfl

/-- The same table at other positions. -/
def LoopTable.place (positions : Nat → Nat) (table : LoopTable) : LoopTable :=
  ⟨table.pairs.map (Prod.map positions positions)⟩

/-- The same issue at another position. -/
def StructureIssue.place (positions : Nat → Nat) : StructureIssue → StructureIssue
  | .unmatchedClose position => .unmatchedClose (positions position)
  | .unclosedOpen position => .unclosedOpen (positions position)

theorem LoopTable.partner?_place {positions : Nat → Nat}
    (hinjective : Function.Injective positions) (table : LoopTable) (position : Nat) :
    (table.place positions).partner? (positions position) =
      (table.partner? position).map positions := by
  obtain ⟨pairs⟩ := table
  simp only [partner?, place, List.findSome?_map]
  induction pairs with
  | nil => rfl
  | cons pair pairs ih =>
      obtain ⟨start, stop⟩ := pair
      simp only [List.findSome?_cons, Function.comp_apply, Prod.map_apply, hinjective.eq_iff]
      by_cases hstart : start = position
      · simp [hstart]
      · by_cases hstop : stop = position
        · simp [hstart, hstop]
        · simpa [hstart, hstop] using ih

namespace Program

variable (program : Program)

/-- The program with its nops left out. -/
def withoutNops : Program :=
  ⟨program.instructions.filter (!·.isNop)⟩

/-- There is no nop at the position.  This is so of every position behind the end, too. -/
def Stays (position : Nat) : Prop :=
  (program.get? position).all (!·.isNop)

instance : DecidablePred program.Stays := fun position =>
  inferInstanceAs (Decidable ((program.get? position).all (!·.isNop)))

/-- The position to which a position moves when the nops before it are left out. -/
def rank (position : Nat) : Nat :=
  Nat.count program.Stays position

/-- The position in the program of what is at a position when the nops are left out. -/
noncomputable def origin (position : Nat) : Nat :=
  Nat.nth program.Stays position

variable {program} {position : Nat}

theorem stays_of_get? {instruction : Instruction}
    (hget : program.get? position = some instruction) :
    program.Stays position ↔ instruction.isNop = false := by
  simp [Stays, hget]

theorem stays_of_end (hget : program.get? position = none) : program.Stays position := by
  simp [Stays, hget]

theorem exists_nop_of_not_stays (hstays : ¬program.Stays position) :
    ∃ character, program.get? position = some (.nop character) := by
  cases hget : program.get? position with
  | none => exact absurd (stays_of_end hget) hstays
  | some instruction =>
      rw [stays_of_get? hget, Bool.not_eq_false] at hstays
      obtain ⟨character, rfl⟩ := Instruction.exists_of_isNop hstays
      exact ⟨character, rfl⟩

theorem infinite_stays (program : Program) : (Set.ofPred program.Stays).Infinite := by
  apply Set.infinite_of_forall_exists_gt
  intro position
  refine ⟨program.size + position + 1, stays_of_end (get?_eq_none_iff.mpr ?_), ?_⟩ <;> omega

theorem rank_succ_of_stays (hstays : program.Stays position) :
    program.rank (position + 1) = program.rank position + 1 :=
  Nat.count_succ_eq_succ_count_iff.mpr hstays

theorem rank_succ_of_not_stays (hstays : ¬program.Stays position) :
    program.rank (position + 1) = program.rank position :=
  Nat.count_succ_eq_count_iff.mpr hstays

theorem origin_rank (hstays : program.Stays position) :
    program.origin (program.rank position) = position :=
  Nat.nth_count hstays

theorem rank_origin (position : Nat) : program.rank (program.origin position) = position :=
  Nat.count_nth_of_infinite program.infinite_stays position

theorem stays_origin (position : Nat) : program.Stays (program.origin position) :=
  Nat.nth_mem_of_infinite program.infinite_stays position

theorem origin_injective (program : Program) : Function.Injective program.origin :=
  Nat.nth_injective program.infinite_stays

/-- The number of members kept before a member that is kept is where it stands among them. -/
theorem getElem?_filter_count {α : Type} (keep : α → Bool) (list : List α) {index : Nat}
    (hkept : list[index]?.all keep) :
    (list.filter keep)[Nat.count (fun index => list[index]?.all keep) index]? = list[index]? := by
  induction list generalizing index with
  | nil => simp
  | cons first rest ih =>
      cases index with
      | zero =>
          have hfirst : keep first = true := by simpa using hkept
          simp [List.filter_cons_of_pos hfirst]
      | succ index =>
          have hrest := ih (by simpa using hkept)
          rw [Nat.count_succ']
          cases hfirst : keep first <;> simpa [hfirst] using hrest

/-- An instruction that stays is found at its new position. -/
theorem get?_withoutNops_rank (hstays : program.Stays position) :
    program.withoutNops.get? (program.rank position) = program.get? position := by
  have hfilter := getElem?_filter_count (!·.isNop) program.instructions.toList
    (by simpa [Stays, get?_eq_toList_getElem?] using hstays)
  have hstays' : program.Stays =
      fun position => program.instructions.toList[position]?.all (!·.isNop) = true := by
    funext position
    rw [Stays, get?_eq_toList_getElem?]
  rw [get?_eq_toList_getElem?, get?_eq_toList_getElem?, withoutNops, Array.toList_filter, rank]
  convert hfilter using 3

theorem get?_origin (program : Program) (position : Nat) :
    program.get? (program.origin position) = program.withoutNops.get? position := by
  rw [← get?_withoutNops_rank (stays_origin position), rank_origin]

/-! ## Loops -/

/-- From a position on, brackets pair as they do with the nops left out. -/
theorem pairsFrom_map_origin {opened : List Nat} {rest : List Instruction}
    (hrest : program.instructions.toList.drop position = rest) :
    LoopTable.pairsFrom position (opened.map program.origin) rest =
      (LoopTable.pairsFrom (program.rank position) opened (rest.filter (!·.isNop))).map
        (Prod.map program.origin program.origin) := by
  induction rest generalizing position opened with
  | nil => rfl
  | cons instruction rest ih =>
      obtain ⟨hget, hdrop⟩ := get?_and_drop_of_drop_eq_cons hrest
      have hstays := stays_of_get? hget
      cases hnop : instruction.isNop with
      | true =>
          have hrank : program.rank (position + 1) = program.rank position :=
            rank_succ_of_not_stays (by simp [hstays, hnop])
          obtain ⟨character, rfl⟩ := Instruction.exists_of_isNop hnop
          rw [List.filter_cons_of_neg (by simp [hnop]), ← hrank]
          exact ih hdrop
      | false =>
          have hrank := rank_succ_of_stays (hstays.mpr hnop)
          have horigin := origin_rank (hstays.mpr hnop)
          rw [List.filter_cons_of_pos (by simp [hnop]), LoopTable.pairsFrom_cons,
            LoopTable.pairsFrom_cons, List.map_append, ← Instruction.ended_map, ← hrank, ← ih hdrop,
            ← Instruction.nest_map, horigin]

theorem loops_eq_place (program : Program) :
    program.loops = program.withoutNops.loops.place program.origin := by
  have hpairs := @pairsFrom_map_origin program 0 [] _ rfl
  rw [loops, loops, LoopTable.place, withoutNops, Array.toList_filter]
  exact congrArg LoopTable.mk hpairs

theorem partner?_origin (program : Program) (position : Nat) :
    program.loops.partner? (program.origin position) =
      (program.withoutNops.loops.partner? position).map program.origin := by
  rw [loops_eq_place, LoopTable.partner?_place program.origin_injective]

/-! ## Issues -/

theorem issueAt?_origin (program : Program) (position : Nat) (instruction : Instruction) :
    issueAt? program.loops (program.origin position) instruction =
      (issueAt? program.withoutNops.loops position instruction).map (·.place program.origin) := by
  cases instruction with
  | loopOpen | loopClose =>
      simp only [issueAt?, partner?_origin, Option.isNone_map]
      split <;> rfl
  | _ => rfl

theorem filterMap_issueAt?_origin {rest : List Instruction}
    (hrest : program.instructions.toList.drop position = rest) :
    ((rest.zipIdx position).filterMap fun (instruction, position) =>
      issueAt? program.loops position instruction) =
    (((rest.filter (!·.isNop)).zipIdx (program.rank position)).filterMap
      fun (instruction, position) => issueAt? program.withoutNops.loops position instruction).map
        (·.place program.origin) := by
  induction rest generalizing position with
  | nil => rfl
  | cons instruction rest ih =>
      obtain ⟨hget, hdrop⟩ := get?_and_drop_of_drop_eq_cons hrest
      have hstays := stays_of_get? hget
      cases hnop : instruction.isNop with
      | true =>
          have hrank : program.rank (position + 1) = program.rank position :=
            rank_succ_of_not_stays (by simp [hstays, hnop])
          obtain ⟨character, rfl⟩ := Instruction.exists_of_isNop hnop
          rw [List.filter_cons_of_neg (by simp [hnop]), ← hrank, ← ih hdrop]
          rfl
      | false =>
          have hrank := rank_succ_of_stays (hstays.mpr hnop)
          have hissue := program.issueAt?_origin (program.rank position) instruction
          rw [origin_rank (hstays.mpr hnop)] at hissue
          rw [List.filter_cons_of_pos (by simp [hnop]), List.zipIdx_cons, List.zipIdx_cons,
            List.filterMap_cons, List.filterMap_cons, ← hrank, ih hdrop]
          simp only [hissue]
          cases issueAt? program.withoutNops.loops (program.rank position) instruction <;> rfl

theorem issues_eq_map_place (program : Program) :
    program.issues = program.withoutNops.issues.map (·.place program.origin) := by
  have hissues := @filterMap_issueAt?_origin program 0 _ rfl
  rw [issues, issues, withoutNops, Array.toList_filter]
  exact hissues

end Program

end LetterMachine
