import LetterMachine.Proofs.BalancedBrackets
import Mathlib.Data.Finset.Card

/-!
# Repairing the brackets of a program

The issues of a program name the fewest instructions that have to be removed to leave balanced
brackets.  They are enough, because every `\` that stays finds a loop on the stack, and every `?`
that stays is taken off it.  They cannot be fewer: up to the last `\` that finds the stack empty,
the program closes more loops than it opens by the number of all of them, and the loops opened in
the whole program exceed those closed by as much as the unclosed loops exceed the unmatched ends.
-/

namespace LetterMachine

namespace Program

variable (program : Program)

/-- The instructions before a position, apart from those removed. -/
def kept (removed : Finset Nat) (stop : Nat) : List Instruction :=
  (List.range stop).filterMap fun position =>
    if position ∈ removed then none else program.get? position

/-- The program without the instructions at some positions. -/
def without (removed : Finset Nat) : Program :=
  ⟨(program.kept removed program.size).toArray⟩

/-- The positions before another one of the instructions of one kind that are removed. -/
def cut (removed : Finset Nat) (instruction : Instruction) (stop : Nat) : Finset Nat :=
  (Finset.range stop).filter fun position =>
    position ∈ removed ∧ program.get? position = some instruction

/-- The positions that the issues of a program name. -/
def reported : Finset Nat :=
  (program.issues.map StructureIssue.position).toFinset

variable {program} {removed : Finset Nat} {instruction : Instruction} {position stop : Nat}

/-! ## The issues in order -/

/-- The issues are the `\` that find no loop on the stack and, behind all of these, the loops that
are on the stack at the end. -/
theorem mem_issues_cases {issue : StructureIssue} : issue ∈ program.issues ↔
    issue ∈ (program.unmatchedCloses 0 program.size).map .unmatchedClose ++
      (program.stackAt program.size).reverse.map .unclosedOpen := by
  cases issue with
  | unmatchedClose position =>
      rw [unmatchedClose_mem_issues_iff]
      simp only [List.mem_append, List.mem_map, StructureIssue.unmatchedClose.injEq,
        exists_eq_right, reduceCtorEq, and_false, exists_false, or_false, unmatchedCloses,
        List.mem_filter, decide_eq_true_eq, List.mem_range'_1]
      refine ⟨fun hissue => ⟨⟨Nat.zero_le _, ?_⟩, hissue⟩, And.right⟩
      simpa using lt_size_of_get? hissue.1
  | unclosedOpen position => simp [unclosedOpen_mem_issues_iff]

theorem position_of_issueAt? {issue : StructureIssue} {table : LoopTable}
    (hissue : issueAt? table position instruction = some issue) : issue.position = position := by
  cases instruction <;> simp only [issueAt?, reduceCtorEq] at hissue
  all_goals
    split_ifs at hissue
    cases hissue
    rfl

theorem pairwise_issues (program : Program) :
    program.issues.Pairwise fun left right => left.position < right.position := by
  apply List.pairwise_filterMap.mpr
  have hpositions : (program.instructions.toList.zipIdx).Pairwise (·.2 < ·.2) := by
    rw [← List.pairwise_map (f := Prod.snd) (R := (· < ·)), List.zipIdx_map_snd]
    exact List.pairwise_lt_range'
  refine hpositions.imp ?_
  intro left right hlt first hfirst second hsecond
  rwa [position_of_issueAt? hfirst, position_of_issueAt? hsecond]

/-- Every unmatched end comes before every unclosed loop. -/
theorem unmatched_lt_unclosed {close start : Nat}
    (hclose : .unmatchedClose close ∈ program.issues)
    (hstart : .unclosedOpen start ∈ program.issues) : close < start := by
  obtain ⟨hget, hstack⟩ := unmatchedClose_mem_issues_iff.mp hclose
  have hmem := unclosedOpen_mem_issues_iff.mp hstart
  apply Nat.lt_of_not_le
  intro hle
  rcases Nat.eq_or_lt_of_le hle with rfl | hlt
  · rw [get?_of_mem_stackAt hmem] at hget
    simp at hget
  · have hopen := mem_stackAt_of_le hmem hlt (Nat.le_of_lt (lt_size_of_get? hget))
    simp [hstack] at hopen

theorem issues_eq (program : Program) : program.issues =
    (program.unmatchedCloses 0 program.size).map .unmatchedClose ++
      (program.stackAt program.size).reverse.map .unclosedOpen := by
  have hissues := pairwise_issues program
  have hcloses : (program.unmatchedCloses 0 program.size).Pairwise (· < ·) :=
    List.Pairwise.filter _ List.pairwise_lt_range'
  have hopens : (program.stackAt program.size).reverse.Pairwise (· < ·) :=
    List.pairwise_reverse.mpr (program.pairwise_stackAt program.size)
  have hlisted : ((program.unmatchedCloses 0 program.size).map StructureIssue.unmatchedClose ++
      (program.stackAt program.size).reverse.map StructureIssue.unclosedOpen).Pairwise
        fun left right => left.position < right.position := by
    refine List.pairwise_append.mpr ⟨?_, ?_, ?_⟩
    · exact List.pairwise_map.mpr hcloses
    · exact List.pairwise_map.mpr hopens
    · intro left hleft right hright
      have hfirst := mem_issues_cases.mpr (List.mem_append_left _ hleft)
      have hsecond := mem_issues_cases.mpr (List.mem_append_right _ hright)
      obtain ⟨close, -, rfl⟩ := List.mem_map.mp hleft
      obtain ⟨start, -, rfl⟩ := List.mem_map.mp hright
      exact unmatched_lt_unclosed hfirst hsecond
  have hnodup : ∀ {list : List StructureIssue},
      list.Pairwise (fun left right => left.position < right.position) → list.Nodup :=
    fun hpairwise => hpairwise.imp fun hlt heq => Nat.ne_of_lt hlt (congrArg _ heq)
  have hperm := (List.perm_ext_iff_of_nodup (hnodup hissues) (hnodup hlisted)).mpr
    fun _ => mem_issues_cases
  exact hperm.eq_of_pairwise (fun _ _ _ _ hlt hgt => absurd hlt (Nat.lt_asymm hgt)) hissues hlisted

theorem length_issues (program : Program) : program.issues.length =
    (program.unmatchedCloses 0 program.size).length + (program.stackAt program.size).length := by
  rw [issues_eq, List.length_append, List.length_map, List.length_map, List.length_reverse]

theorem card_reported (program : Program) : program.reported.card = program.issues.length := by
  have hnodup : (program.issues.map StructureIssue.position).Nodup :=
    List.Pairwise.imp Nat.ne_of_lt (List.pairwise_map.mpr (pairwise_issues program))
  rw [reported, List.toFinset_card_of_nodup hnodup, List.length_map]

theorem mem_reported_iff : position ∈ program.reported ↔
    (program.get? position = some .loopClose ∧ program.stackAt position = []) ∨
      position ∈ program.stackAt program.size := by
  rw [reported, List.mem_toFinset, List.mem_map, ← unmatchedClose_mem_issues_iff,
    ← unclosedOpen_mem_issues_iff]
  constructor
  · rintro ⟨issue, hissue, rfl⟩
    cases issue with
    | unmatchedClose close => exact Or.inl hissue
    | unclosedOpen start => exact Or.inr hissue
  · rintro (hissue | hissue)
    · exact ⟨_, hissue, rfl⟩
    · exact ⟨_, hissue, rfl⟩

/-! ## What is left of a program -/

theorem kept_succ (removed : Finset Nat) (stop : Nat) :
    program.kept removed (stop + 1) = program.kept removed stop ++
      (if stop ∈ removed then none else program.get? stop).toList := by
  rw [kept, List.range_succ, List.filterMap_append, kept]
  cases hget : (if stop ∈ removed then none else program.get? stop) <;> simp [hget]

theorem isPrefix_kept_iff {front : List Instruction} :
    front <+: program.kept removed stop ↔
      ∃ middle, middle ≤ stop ∧ front = program.kept removed middle := by
  rw [kept, List.prefix_filterMap_iff]
  constructor
  · rintro ⟨positions, hprefix, rfl⟩
    have hlength := hprefix.length_le
    rw [List.length_range] at hlength
    refine ⟨positions.length, hlength, ?_⟩
    rw [List.prefix_iff_eq_take, List.take_range, Nat.min_eq_left hlength] at hprefix
    rw [kept, ← hprefix]
  · rintro ⟨middle, hle, rfl⟩
    refine ⟨List.range middle, ?_, rfl⟩
    rw [List.prefix_iff_eq_take, List.length_range, List.take_range, Nat.min_eq_left hle]

theorem segment_zero_size (program : Program) :
    program.segment 0 program.size = program.instructions.toList := by
  simp [segment, List.extract_eq_take_drop, size]

theorem without_empty (program : Program) : program.without ∅ = program := by
  have hkept : ∀ stop, program.kept ∅ stop = program.segment 0 stop := by
    intro stop
    induction stop with
    | zero => simp [kept]
    | succ stop ih =>
        rw [kept_succ, segment_succ (Nat.zero_le _), ih, if_neg (Finset.notMem_empty _)]
  rw [without, hkept, segment_zero_size]

theorem card_cut_succ (removed : Finset Nat) (instruction : Instruction) (stop : Nat) :
    (program.cut removed instruction (stop + 1)).card =
      (program.cut removed instruction stop).card +
        if stop ∈ removed ∧ program.get? stop = some instruction then 1 else 0 := by
  rw [cut, Finset.range_add_one, Finset.filter_insert]
  split
  · rw [Finset.card_insert_of_notMem (by simp)]
    rfl
  · rfl

/-- An instruction is left in place or removed. -/
theorem count_segment_eq (removed : Finset Nat) (instruction : Instruction) (stop : Nat) :
    (program.segment 0 stop).count instruction =
      (program.kept removed stop).count instruction +
        (program.cut removed instruction stop).card := by
  induction stop with
  | zero => simp [kept, cut]
  | succ stop ih =>
      rw [segment_succ (Nat.zero_le _), kept_succ, List.count_append, List.count_append, ih,
        card_cut_succ]
      by_cases hremoved : stop ∈ removed
      · by_cases hget : program.get? stop = some instruction
        · simp [hremoved, hget]
          omega
        · have hcount : (program.get? stop).toList.count instruction = 0 := by
            simpa [List.count_eq_zero] using hget
          simp [hremoved, hget, hcount]
      · simp [hremoved]
        omega

theorem card_cut_le (removed : Finset Nat) (instruction : Instruction) {middle stop : Nat}
    (hle : middle ≤ stop) :
    (program.cut removed instruction middle).card ≤ (program.cut removed instruction stop).card :=
  Finset.card_le_card (Finset.filter_subset_filter _ (Finset.range_mono hle))

theorem card_cut_add_card_cut_le (program : Program) (removed : Finset Nat) (stop : Nat) :
    (program.cut removed .loopClose stop).card + (program.cut removed .loopOpen stop).card ≤
      removed.card := by
  have hdisjoint : Disjoint (program.cut removed .loopClose stop)
      (program.cut removed .loopOpen stop) := by
    rw [Finset.disjoint_left]
    intro position hclose hopen
    have hget := (Finset.mem_filter.mp hclose).2.2
    rw [(Finset.mem_filter.mp hopen).2.2] at hget
    simp at hget
  rw [← Finset.card_union_of_disjoint hdisjoint]
  apply Finset.card_le_card
  intro position hmem
  rcases Finset.mem_union.mp hmem with hmem | hmem
  · exact (Finset.mem_filter.mp hmem).2.1
  · exact (Finset.mem_filter.mp hmem).2.1

/-! ## The issues are enough -/

theorem card_cut_reported_close (program : Program) (stop : Nat) :
    (program.cut program.reported .loopClose stop).card =
      (program.unmatchedCloses 0 stop).length := by
  have hnodup : (program.unmatchedCloses 0 stop).Nodup :=
    List.Nodup.filter _ List.nodup_range'
  rw [← List.toFinset_card_of_nodup hnodup]
  congr 1
  ext position
  simp only [cut, unmatchedCloses, Finset.mem_filter, Finset.mem_range, List.mem_toFinset,
    List.mem_filter, List.mem_range'_1, decide_eq_true_eq, mem_reported_iff]
  constructor
  · rintro ⟨hlt, hreported | hreported, hget⟩
    · exact ⟨by omega, hreported⟩
    · rw [get?_of_mem_stackAt hreported] at hget
      simp at hget
  · rintro ⟨hposition, hunmatched⟩
    exact ⟨by omega, Or.inl hunmatched, hunmatched.1⟩

theorem cut_reported_open (stop : Nat) : program.cut program.reported .loopOpen stop =
    (Finset.range stop).filter (· ∈ program.stackAt program.size) := by
  ext position
  simp only [cut, Finset.mem_filter, Finset.mem_range, mem_reported_iff]
  apply and_congr_right
  intro _
  constructor
  · rintro ⟨hreported | hreported, hget⟩
    · rw [hreported.1] at hget
      simp at hget
    · exact hreported
  · exact fun hmem => ⟨Or.inr hmem, get?_of_mem_stackAt hmem⟩

theorem nodup_stackAt (program : Program) (position : Nat) : (program.stackAt position).Nodup :=
  (program.pairwise_stackAt position).imp Nat.ne_of_gt

/-- The unclosed loops that start before a position are on the stack there. -/
theorem card_cut_reported_open_le (hle : stop ≤ program.size) :
    (program.cut program.reported .loopOpen stop).card ≤ (program.stackAt stop).length := by
  rw [cut_reported_open, ← List.toFinset_card_of_nodup (nodup_stackAt program stop)]
  apply Finset.card_le_card
  intro position hmem
  obtain ⟨hlt, hopen⟩ := Finset.mem_filter.mp hmem
  exact List.mem_toFinset.mpr (mem_stackAt_of_le hopen (Finset.mem_range.mp hlt) hle)

theorem card_cut_reported_open_size (program : Program) :
    (program.cut program.reported .loopOpen program.size).card =
      (program.stackAt program.size).length := by
  rw [cut_reported_open, ← List.toFinset_card_of_nodup (nodup_stackAt program program.size)]
  congr 1
  ext position
  rw [Finset.mem_filter, Finset.mem_range, List.mem_toFinset]
  exact and_iff_right_of_imp lt_of_mem_stackAt

/-- In what is left without the reported brackets, the loops opened exceed those closed by the loops
on the stack that have an end. -/
theorem count_kept_reported (program : Program) (stop : Nat) :
    (program.stackAt stop).length + (program.kept program.reported stop).count .loopClose =
      (program.kept program.reported stop).count .loopOpen +
        (program.cut program.reported .loopOpen stop).card := by
  have hstack := @length_stackAt_add_count program 0 stop (Nat.zero_le _)
  have hclose := @count_segment_eq program program.reported .loopClose stop
  have hopen := @count_segment_eq program program.reported .loopOpen stop
  rw [card_cut_reported_close] at hclose
  rw [hclose, hopen, stackAt, List.length_nil] at hstack
  omega

theorem balanced_without_reported (program : Program) :
    Balanced (program.without program.reported).instructions.toList := by
  change Balanced (program.kept program.reported program.size)
  constructor
  · intro front hfront
    obtain ⟨middle, hmiddle, rfl⟩ := isPrefix_kept_iff.mp hfront
    have hcount := count_kept_reported program middle
    have hcut := card_cut_reported_open_le hmiddle
    omega
  · have hcount := count_kept_reported program program.size
    rw [card_cut_reported_open_size] at hcount
    omega

/-! ## Fewer are not enough -/

/-- All unmatched ends come before some position with an empty stack. -/
theorem exists_stackAt_eq_nil (program : Program) (stop : Nat) :
    ∃ middle ≤ stop, program.stackAt middle = [] ∧
      (program.unmatchedCloses 0 middle).length = (program.unmatchedCloses 0 stop).length := by
  induction stop with
  | zero => exact ⟨0, le_rfl, rfl, rfl⟩
  | succ stop ih =>
      by_cases hlast : program.get? stop = some .loopClose ∧ program.stackAt stop = []
      · refine ⟨stop + 1, le_rfl, ?_, rfl⟩
        rw [stackAt_succ hlast.1, hlast.2]
        rfl
      · obtain ⟨middle, hmiddle, hstack, hlength⟩ := ih
        refine ⟨middle, Nat.le_succ_of_le hmiddle, hstack, ?_⟩
        rw [unmatchedCloses_succ (Nat.zero_le _), if_neg hlast, List.append_nil, hlength]

theorem length_issues_le_card (hbalanced : Balanced (program.without removed).instructions.toList) :
    program.issues.length ≤ removed.card := by
  change Balanced (program.kept removed program.size) at hbalanced
  have hcounts : ∀ stop, (program.stackAt stop).length +
      ((program.kept removed stop).count .loopClose + (program.cut removed .loopClose stop).card) =
        (program.kept removed stop).count .loopOpen + (program.cut removed .loopOpen stop).card +
          (program.unmatchedCloses 0 stop).length := by
    intro stop
    have hstack := @length_stackAt_add_count program 0 stop (Nat.zero_le _)
    rwa [count_segment_eq removed, count_segment_eq removed, stackAt, List.length_nil,
      Nat.zero_add] at hstack
  obtain ⟨middle, hmiddle, hstack, hlength⟩ := exists_stackAt_eq_nil program program.size
  have hfront := hcounts middle
  rw [hstack, hlength, List.length_nil, Nat.zero_add] at hfront
  have hkept := hbalanced.closed_le_opened _ (isPrefix_kept_iff.mpr ⟨middle, hmiddle, rfl⟩)
  -- So many ends have to go already before `middle`.
  have hcloses : (program.unmatchedCloses 0 program.size).length ≤
      (program.cut removed .loopClose program.size).card := by
    have := @card_cut_le program removed .loopClose middle program.size hmiddle
    omega
  have hwhole := hcounts program.size
  have heq := hbalanced.opened_eq_closed
  have hcard := card_cut_add_card_cut_le program removed program.size
  rw [length_issues]
  omega

theorem issues_eq_nil_iff_balanced (program : Program) :
    program.issues = [] ↔ Balanced program.instructions.toList := by
  constructor
  · intro hissues
    have hbalanced := balanced_without_reported program
    rwa [reported, hissues, List.map_nil, List.toFinset_nil, without_empty] at hbalanced
  · intro hbalanced
    rw [← without_empty program] at hbalanced
    have hle := length_issues_le_card hbalanced
    rw [Finset.card_empty] at hle
    exact List.eq_nil_of_length_eq_zero (Nat.le_zero.mp hle)

/-! ## The number of brackets -/

theorem unmatchedCloses_cons (hlt : position < stop) :
    program.unmatchedCloses position stop =
      (if program.get? position = some .loopClose ∧ program.stackAt position = [] then [position]
        else []) ++ program.unmatchedCloses (position + 1) stop := by
  obtain ⟨further, rfl⟩ := Nat.exists_eq_add_of_lt hlt
  rw [unmatchedCloses, unmatchedCloses, Nat.add_assoc, Nat.add_sub_cancel_left, List.range'_succ,
    List.filter_cons, Nat.add_comm further, ← Nat.add_assoc, Nat.add_sub_cancel_left]
  simp only [decide_eq_true_eq]
  split <;> rfl

/-- Every `\` from a position on ends a loop or is without one. -/
theorem length_pairsFrom_add {word : List Instruction}
    (hword : program.instructions.toList.drop position = word) :
    (LoopTable.pairsFrom position (program.stackAt position) word).length +
      (program.unmatchedCloses position program.size).length = word.count .loopClose := by
  induction word generalizing position with
  | nil =>
      have hsize : program.size ≤ position := by simpa [List.drop_eq_nil_iff, size] using hword
      simp [LoopTable.pairsFrom, unmatchedCloses, Nat.sub_eq_zero_of_le hsize]
  | cons instruction rest ih =>
      obtain ⟨hget, hdrop⟩ := get?_and_drop_of_drop_eq_cons hword
      have hrest := ih hdrop
      rw [stackAt_succ hget] at hrest
      rw [LoopTable.pairsFrom_cons, unmatchedCloses_cons (lt_size_of_get? hget), hget,
        List.count_cons, ← hrest]
      cases instruction with
      | loopClose =>
          cases hstack : program.stackAt position <;> simp [Instruction.ended] <;> omega
      | _ => simp [Instruction.ended]

theorem countP_isLoopBracket (word : List Instruction) :
    word.countP (·.isLoopBracket) = word.count .loopOpen + word.count .loopClose := by
  induction word with
  | nil => rfl
  | cons instruction rest ih =>
      rw [List.countP_cons, List.count_cons, List.count_cons, ih]
      cases instruction <;> simp [Instruction.isLoopBracket] <;> omega

theorem two_mul_size_add_length_issues (program : Program) :
    2 * program.loops.size + program.issues.length =
      program.instructions.toList.countP (·.isLoopBracket) := by
  have hpairs := @length_pairsFrom_add program 0 _ rfl
  have hstack := @length_stackAt_add_count program 0 program.size (Nat.zero_le _)
  rw [segment_zero_size, stackAt, List.length_nil] at hstack
  rw [stackAt, List.drop_zero] at hpairs
  change program.loops.size + _ = _ at hpairs
  rw [countP_isLoopBracket, length_issues]
  omega

/-- **The issues of a program are a minimal repair.**  There are none exactly if the brackets are
balanced.  They come in the order of their positions, the unmatched `\` before the unclosed `?`.
Removing the instructions that they name leaves balanced brackets, and no smaller set of
instructions does.  Every bracket is an end of a loop or named by an issue. -/
theorem issues_minimal_repair (program : Program) :
    (program.issues = [] ↔ Balanced program.instructions.toList) ∧
    (program.issues.map StructureIssue.position).Pairwise (· < ·) ∧
    (∃ closes opens : List Nat,
      program.issues = closes.map .unmatchedClose ++ opens.map .unclosedOpen ∧
      (∀ close ∈ closes, program.get? close = some .loopClose) ∧
      (∀ start ∈ opens, program.get? start = some .loopOpen)) ∧
    Balanced (program.without program.reported).instructions.toList ∧
    program.reported.card = program.issues.length ∧
    (∀ removed : Finset Nat, Balanced (program.without removed).instructions.toList →
      program.issues.length ≤ removed.card) ∧
    2 * program.loops.size + program.issues.length =
      program.instructions.toList.countP (·.isLoopBracket) := by
  refine ⟨issues_eq_nil_iff_balanced program, List.pairwise_map.mpr (pairwise_issues program), ?_,
    balanced_without_reported program, card_reported program,
    fun _ => length_issues_le_card, two_mul_size_add_length_issues program⟩
  refine ⟨_, _, issues_eq program, ?_, ?_⟩
  · intro close hclose
    have hunmatched := List.mem_filter.mp hclose
    exact (of_decide_eq_true hunmatched.2).1
  · intro start hstart
    exact get?_of_mem_stackAt (List.mem_reverse.mp hstart)

end Program

end LetterMachine
