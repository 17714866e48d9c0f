import LetterMachine.Proofs.NopPositions
import Mathlib.Data.Set.Card

/-!
# Balanced brackets

The pairs of loop brackets are described without a stack.  A word is balanced if none of its front
parts closes more loops than it opens, and the whole word closes as many as it opens.  A `?` and a
later `\` are the two ends of a loop exactly if the word between them is balanced.

What ties the words to the stack is a count: between two positions the stack grows by the loops
opened and shrinks by the loops closed, except at those `\` that find it empty.
-/

namespace LetterMachine

/-- No front part of a word closes more loops than it opens, and the whole word closes as many as
it opens. -/
structure Balanced (word : List Instruction) : Prop where
  closed_le_opened : ∀ front, front <+: word → front.count .loopClose ≤ front.count .loopOpen
  opened_eq_closed : word.count .loopOpen = word.count .loopClose

theorem balanced_iff_inits {word : List Instruction} : Balanced word ↔
    (∀ front ∈ word.inits, front.count .loopClose ≤ front.count .loopOpen) ∧
      word.count .loopOpen = word.count .loopClose := by
  simp only [List.mem_inits]
  exact ⟨fun hbalanced => ⟨hbalanced.1, hbalanced.2⟩, fun hbalanced => ⟨hbalanced.1, hbalanced.2⟩⟩

instance (word : List Instruction) : Decidable (Balanced word) :=
  decidable_of_iff _ balanced_iff_inits.symm

example : Balanced [.loopOpen, .loopOpen, .loopClose, .loopClose] ∧
    ¬Balanced [.loopClose, .loopOpen] := by decide

namespace Program

variable (program : Program)

/-- The instructions from a position on up to another one. -/
def segment (start stop : Nat) : List Instruction :=
  program.instructions.toList.extract start stop

/-- The positions, from `start` on up to `stop`, of those `\` that find no loop on the stack. -/
def unmatchedCloses (start stop : Nat) : List Nat :=
  (List.range' start (stop - start)).filter fun position =>
    program.get? position = some .loopClose ∧ program.stackAt position = []

/-- The two ends of a loop: a `?` and a later `\` with a balanced word between them. -/
structure Encloses (start close : Nat) : Prop where
  start_lt : start < close
  get?_start : program.get? start = some .loopOpen
  get?_close : program.get? close = some .loopClose
  balanced : Balanced (program.segment (start + 1) close)

variable {program} {start close stop : Nat}

/-! ## The stack and the count of brackets -/

@[simp]
theorem segment_self (position : Nat) : program.segment position position = [] := by
  simp [segment, List.extract_eq_take_drop]

theorem segment_succ (hle : start ≤ stop) :
    program.segment start (stop + 1) =
      program.segment start stop ++ (program.get? stop).toList := by
  simp only [segment, List.extract_eq_take_drop, get?_eq_toList_getElem?]
  rw [Nat.succ_sub hle, List.take_add_one, List.getElem?_drop, Nat.add_sub_cancel' hle]

/-- The front parts of a segment are the segments with the same start. -/
theorem isPrefix_segment_iff {front : List Instruction} (hle : start ≤ stop) :
    front <+: program.segment start stop ↔
      ∃ middle, start ≤ middle ∧ middle ≤ stop ∧ front = program.segment start middle := by
  simp only [segment, List.extract_eq_take_drop]
  constructor
  · intro hprefix
    obtain ⟨hfront, hlength⟩ := List.prefix_take_iff.mp hprefix
    refine ⟨start + front.length, Nat.le_add_right _ _, by omega, ?_⟩
    rw [Nat.add_sub_cancel_left]
    exact List.prefix_iff_eq_take.mp hfront
  · rintro ⟨middle, hstart, hstop, rfl⟩
    exact List.take_prefix_take_left (Nat.sub_le_sub_right hstop start)

theorem unmatchedCloses_succ (hle : start ≤ stop) :
    program.unmatchedCloses start (stop + 1) = program.unmatchedCloses start stop ++
      if program.get? stop = some .loopClose ∧ program.stackAt stop = [] then [stop] else [] := by
  rw [unmatchedCloses, Nat.succ_sub hle, List.range'_concat, List.filter_append, Nat.one_mul,
    Nat.add_sub_cancel' hle]
  simp only [List.filter_cons, List.filter_nil, decide_eq_true_eq]
  rfl

/-- Between two positions the stack grows by the loops opened and shrinks by the loops closed,
except where it is empty already. -/
theorem length_stackAt_add_count (hle : start ≤ stop) :
    (program.stackAt stop).length + (program.segment start stop).count .loopClose =
      (program.stackAt start).length + (program.segment start stop).count .loopOpen +
        (program.unmatchedCloses start stop).length := by
  induction stop, hle using Nat.le_induction with
  | base => simp [unmatchedCloses]
  | succ stop hle ih =>
      rw [segment_succ hle, unmatchedCloses_succ hle]
      cases hget : program.get? stop with
      | none => simpa [stackAt_succ_of_end hget] using ih
      | some instruction =>
          rw [stackAt_succ hget]
          cases instruction with
          | loopOpen => simp [Instruction.nest]; omega
          | loopClose =>
              cases hstack : program.stackAt stop with
              | nil => simp [Instruction.nest, hstack] at ih ⊢; omega
              | cons innermost outer => simp [Instruction.nest, hstack] at ih ⊢; omega
          | _ => simpa [Instruction.nest] using ih

/-! ## The loop around a position -/

/-- The stack above a loop holds the loops opened since. -/
theorem exists_stackAt_eq_append (hmem : start ∈ program.stackAt stop) :
    ∃ inner, program.stackAt stop = inner ++ start :: program.stackAt start := by
  obtain ⟨inner, outer, hstack⟩ := List.append_of_mem hmem
  have hsuffix : (start :: outer) <:+ program.stackAt stop := ⟨inner, hstack.symm⟩
  exact ⟨inner, by rw [hstack, stackAt_of_suffix hsuffix]⟩

/-- Under the innermost loop is the stack on which it was put. -/
theorem stackAt_eq_cons_of_head? {position : Nat}
    (hhead : (program.stackAt position).head? = some start) :
    program.stackAt position = start :: program.stackAt start := by
  have hstack := List.eq_cons_of_mem_head? hhead
  have hsuffix : (start :: (program.stackAt position).tail) <:+ program.stackAt position := by
    rw [← hstack]
  rw [hstack, ← stackAt_of_suffix hsuffix]

theorem mem_stackAt_of_le {middle : Nat} (hmem : start ∈ program.stackAt stop)
    (hstart : start < middle) (hmiddle : middle ≤ stop) : start ∈ program.stackAt middle := by
  obtain ⟨-, hget, hopen⟩ := mem_stackAt_iff.mp hmem
  exact mem_stackAt_of_open hget hstart fun close hpair => hmiddle.trans (hopen close hpair)

/-- While a loop is open, no `\` is without a loop that it could close. -/
theorem unmatchedCloses_eq_nil
    (hopen : ∀ position, start < position → position < stop → start ∈ program.stackAt position) :
    program.unmatchedCloses (start + 1) stop = [] := by
  apply List.filter_eq_nil_iff.mpr
  intro position hposition
  obtain ⟨hstart, hstop⟩ := List.mem_range'_1.mp hposition
  have hmem := hopen position hstart (by omega)
  simp [List.ne_nil_of_mem hmem]

theorem length_stackAt_of_open (hget : program.get? start = some .loopOpen) (hlt : start < stop)
    (hopen : ∀ position, start < position → position < stop → start ∈ program.stackAt position) :
    (program.stackAt stop).length + (program.segment (start + 1) stop).count .loopClose =
      (program.stackAt start).length + 1 + (program.segment (start + 1) stop).count .loopOpen := by
  have hcount := @length_stackAt_add_count program (start + 1) stop hlt
  rw [unmatchedCloses_eq_nil hopen, stackAt_succ hget] at hcount
  exact hcount

theorem length_stackAt_of_mem (hmem : start ∈ program.stackAt stop) :
    (program.stackAt stop).length + (program.segment (start + 1) stop).count .loopClose =
      (program.stackAt start).length + 1 + (program.segment (start + 1) stop).count .loopOpen :=
  length_stackAt_of_open (get?_of_mem_stackAt hmem) (lt_of_mem_stackAt hmem)
    fun _ hstart hstop => mem_stackAt_of_le hmem hstart (Nat.le_of_lt hstop)

/-- A loop is still open at a position exactly if up to there no more loops have been closed than
opened since. -/
theorem mem_stackAt_iff_count (hget : program.get? start = some .loopOpen) (hlt : start < stop) :
    start ∈ program.stackAt stop ↔
      ∀ middle, start < middle → middle ≤ stop →
        (program.segment (start + 1) middle).count .loopClose ≤
          (program.segment (start + 1) middle).count .loopOpen := by
  constructor
  · intro hmem middle hstart hmiddle
    have hmem' := mem_stackAt_of_le hmem hstart hmiddle
    obtain ⟨inner, hstack⟩ := exists_stackAt_eq_append hmem'
    have hcount := length_stackAt_of_mem hmem'
    rw [hstack, List.length_append, List.length_cons] at hcount
    omega
  · intro hcounts
    apply mem_stackAt_of_open hget hlt
    -- Right behind its end a loop would leave one end more than there are starts.
    intro close hpair
    apply Nat.le_of_not_lt
    intro hclose
    obtain ⟨hgetClose, hhead⟩ := mem_pairs_iff.mp hpair
    have hmem := List.mem_of_head? hhead
    have hend : start < close + 1 := Nat.lt_succ_of_lt (lt_of_mem_pairs hpair)
    have hlength : (program.stackAt (close + 1)).length = (program.stackAt start).length := by
      rw [stackAt_succ hgetClose, stackAt_eq_cons_of_head? hhead]
      rfl
    have hcount := length_stackAt_of_open hget hend
      fun position hstart hposition => mem_stackAt_of_le hmem hstart (Nat.le_of_lt_succ hposition)
    have hle := hcounts (close + 1) hend hclose
    omega

/-- The pairs of the loop table are the brackets with a balanced word between them. -/
theorem mem_pairs_iff_encloses :
    (start, close) ∈ program.loops.pairs ↔ program.Encloses start close := by
  constructor
  · intro hpair
    obtain ⟨hgetClose, hhead⟩ := mem_pairs_iff.mp hpair
    have hlt := lt_of_mem_pairs hpair
    have hget := get?_start_of_mem_pairs hpair
    have hmem := List.mem_of_head? hhead
    refine ⟨hlt, hget, hgetClose, ?_, ?_⟩
    · intro front hfront
      obtain ⟨middle, hstart, hmiddle, rfl⟩ := (isPrefix_segment_iff hlt).mp hfront
      exact (mem_stackAt_iff_count hget hlt).mp hmem middle hstart hmiddle
    · have hcount := length_stackAt_of_mem hmem
      rw [stackAt_eq_cons_of_head? hhead, List.length_cons] at hcount
      omega
  · rintro ⟨hlt, hget, hgetClose, hbalanced⟩
    have hmem : start ∈ program.stackAt close := by
      apply (mem_stackAt_iff_count hget hlt).mpr
      intro middle hstart hmiddle
      apply hbalanced.closed_le_opened
      exact (isPrefix_segment_iff hlt).mpr ⟨middle, hstart, hmiddle, rfl⟩
    obtain ⟨inner, hstack⟩ := exists_stackAt_eq_append hmem
    have hcount := length_stackAt_of_mem hmem
    rw [hbalanced.opened_eq_closed, hstack, List.length_append, List.length_cons] at hcount
    have hinner : inner = [] := List.eq_nil_of_length_eq_zero (by omega)
    apply mem_pairs_iff.mpr
    rw [hstack, hinner]
    exact ⟨hgetClose, rfl⟩

/-! ## The whole table -/

/-- The loops are listed in the order of their ends. -/
theorem pairwise_pairsFrom (position : Nat) (opened : List Nat) (word : List Instruction) :
    (LoopTable.pairsFrom position opened word).Pairwise (·.2 < ·.2) ∧
      ∀ pair ∈ LoopTable.pairsFrom position opened word, position ≤ pair.2 := by
  induction word generalizing position opened with
  | nil => exact ⟨List.Pairwise.nil, List.forall_mem_nil _⟩
  | cons instruction rest ih =>
      obtain ⟨hpairwise, hbehind⟩ := ih (position + 1) (instruction.nest position opened)
      have hended : ∀ pair ∈ instruction.ended position opened, pair.2 = position := by
        cases instruction <;> simp [Instruction.ended]
      have hsingle : (instruction.ended position opened).Pairwise (·.2 < ·.2) := by
        cases instruction <;> cases opened <;> simp [Instruction.ended]
      rw [LoopTable.pairsFrom_cons]
      constructor
      · refine List.pairwise_append.mpr ⟨hsingle, hpairwise, ?_⟩
        intro pair hpair later hlater
        rw [hended pair hpair]
        exact hbehind later hlater
      · intro pair hpair
        rcases List.mem_append.mp hpair with hpair | hpair
        · exact (hended pair hpair).ge
        · exact Nat.le_of_succ_le (hbehind pair hpair)

theorem nodup_pairs (program : Program) : program.loops.pairs.Nodup :=
  (pairwise_pairsFrom 0 [] program.instructions.toList).1.imp fun hlt heq =>
    Nat.ne_of_lt hlt (congrArg Prod.snd heq)

/-- The table has one entry for each pair of brackets that enclose a loop. -/
theorem encard_encloses (program : Program) :
    {pair : Nat × Nat | program.Encloses pair.1 pair.2}.encard = program.loops.size := by
  have hset : {pair : Nat × Nat | program.Encloses pair.1 pair.2} =
      (program.loops.pairs.toFinset : Set (Nat × Nat)) := by
    ext ⟨start, close⟩
    rw [List.coe_toFinset]
    exact mem_pairs_iff_encloses.symm
  rw [hset, Set.encard_coe_eq_coe_finsetCard, List.toFinset_card_of_nodup (nodup_pairs program)]
  rfl

theorem partner?_eq_some_iff_encloses {position other : Nat} :
    program.loops.partner? position = some other ↔
      program.Encloses position other ∨ program.Encloses other position := by
  rw [partner?_eq_some_iff, mem_pairs_iff_encloses, mem_pairs_iff_encloses]

/-- A loop that starts within another one ends within it. -/
theorem close_lt_of_start_within {inner innerClose : Nat}
    (houter : (start, close) ∈ program.loops.pairs)
    (hinner : (inner, innerClose) ∈ program.loops.pairs) (hstart : start < inner)
    (hclose : inner < close) : innerClose < close := by
  apply Nat.lt_of_not_le
  intro hle
  -- The inner loop would still be open where the outer one is the innermost.
  have hopen : inner ∈ program.stackAt close :=
    mem_stackAt_of_open (get?_start_of_mem_pairs hinner) hclose fun other hother =>
      eq_of_mem_pairs_of_start hinner hother ▸ hle
  rw [stackAt_eq_cons_of_head? (mem_pairs_iff.mp houter).2] at hopen
  rcases List.mem_cons.mp hopen with heq | hmem
  · omega
  · have := lt_of_mem_stackAt hmem
    omega

/-- A loop that ends within another one starts within it. -/
theorem start_lt_of_close_within {inner innerClose : Nat}
    (houter : (start, close) ∈ program.loops.pairs)
    (hinner : (inner, innerClose) ∈ program.loops.pairs) (hstart : start < innerClose)
    (hclose : innerClose < close) : start < inner := by
  have hopen : start ∈ program.stackAt innerClose :=
    mem_stackAt_of_open (get?_start_of_mem_pairs houter) hstart fun other hother =>
      eq_of_mem_pairs_of_start houter hother ▸ Nat.le_of_lt hclose
  rw [stackAt_eq_cons_of_head? (mem_pairs_iff.mp hinner).2] at hopen
  rcases List.mem_cons.mp hopen with rfl | hmem
  · have := eq_of_mem_pairs_of_start houter hinner
    omega
  · exact lt_of_mem_stackAt hmem

/-- Loops do not cross. -/
theorem within_of_partner? {inner other : Nat}
    (houter : (start, close) ∈ program.loops.pairs) (hstart : start < inner)
    (hclose : inner < close) (hpartner : program.loops.partner? inner = some other) :
    start < other ∧ other < close := by
  rcases partner?_eq_some_iff.mp hpartner with hinner | hinner
  · have hlt := lt_of_mem_pairs hinner
    exact ⟨hstart.trans hlt, close_lt_of_start_within houter hinner hstart hclose⟩
  · have hlt := lt_of_mem_pairs hinner
    exact ⟨start_lt_of_close_within houter hinner hstart hclose, hlt.trans hclose⟩

/-- **The loop table is bracket matching.**  Of two positions, the later one is the partner of the
earlier one exactly if they hold `?` and `\` and the brackets between them are balanced.  No other
positions have partners, no position is its own partner, partners have each other, and loops do not
cross.  The size of the table is the number of the pairs. -/
theorem partner?_matches_brackets (program : Program) :
    let partner? := program.loops.partner?
    (∀ start close, start < close →
      (partner? start = some close ↔ program.get? start = some .loopOpen ∧
        program.get? close = some .loopClose ∧ Balanced (program.segment (start + 1) close))) ∧
    (∀ position other, partner? position = some other ↔
      program.Encloses position other ∨ program.Encloses other position) ∧
    (∀ position other, partner? position = some other → partner? other = some position) ∧
    (∀ position, partner? position ≠ some position) ∧
    (∀ start close inner other, partner? start = some close → start < inner → inner < close →
      partner? inner = some other → start < other ∧ other < close) ∧
    {pair : Nat × Nat | program.Encloses pair.1 pair.2}.encard = program.loops.size := by
  intro partner?
  refine ⟨?_, ?_, ?_, ?_, ?_, encard_encloses program⟩
  · intro start close hlt
    rw [partner?_eq_some_iff_encloses]
    constructor
    · rintro (hencloses | hencloses)
      · exact ⟨hencloses.get?_start, hencloses.get?_close, hencloses.balanced⟩
      · exact absurd hencloses.start_lt (Nat.lt_asymm hlt)
    · rintro ⟨hstart, hclose, hbalanced⟩
      exact Or.inl ⟨hlt, hstart, hclose, hbalanced⟩
  · intro position other
    exact partner?_eq_some_iff_encloses
  · intro position other hpartner
    rw [partner?_eq_some_iff_encloses] at hpartner ⊢
    exact hpartner.symm
  · intro position hself
    rcases partner?_eq_some_iff_encloses.mp hself with hencloses | hencloses
    all_goals exact Nat.lt_irrefl position hencloses.start_lt
  · intro start close inner other hpartner hstart hclose hinner
    rcases partner?_eq_some_iff.mp hpartner with houter | houter
    · exact within_of_partner? houter hstart hclose hinner
    · have := lt_of_mem_pairs houter
      omega

end Program

end LetterMachine
