import LetterMachine.CommandLine.Session
import LetterMachine.Proofs.Brackets
import LetterMachine.Proofs.EncodedText
import LetterMachine.Proofs.PrintedDoubles

/-!
# What a listing shows

The lines of a listing can be read back: the digits at the start of a line are the position, however
wide their column is, and the symbol behind them is that of one instruction only.  So a listing
tells at every position which instruction with an effect is there, if any; what it leaves out are
the instructions without effect.

An arrow stands only in the lines of loop brackets, and a question mark behind it only where the
bracket has no partner.  These are the brackets that a check reports.
-/

namespace LetterMachine

/-! ## Symbols -/

namespace Instruction

variable {instruction : Instruction}

theorem ofChar_symbol (heffect : instruction.isNop = false) :
    ofChar instruction.symbol = instruction := by
  cases instruction with
  | select letter =>
      rcases letter with ⟨index⟩
      revert index
      decide
  | transfer letter =>
      rcases letter with ⟨index⟩
      revert index
      decide
  | digit value =>
      revert value
      decide
  | shuffle kind => cases kind <;> rfl
  | operate operator => cases operator <;> rfl
  | print form => cases form <;> rfl
  | read form => cases form <;> rfl
  | nop character => cases heffect
  | _ => rfl

/-- The instruction that listings show by a character. -/
def ofVisible (shown : Char) : Instruction :=
  if shown = '·' then .shuffle .drop else ofChar shown

theorem ofVisible_visibleSymbol (heffect : instruction.isNop = false) :
    ofVisible instruction.visibleSymbol = instruction := by
  unfold visibleSymbol
  split
  · rfl
  · rw [ofVisible, if_neg, ofChar_symbol heffect]
    intro hsymbol
    rw [← ofChar_symbol heffect, hsymbol] at heffect
    exact absurd heffect (by decide)

/-- A character that has no effect is not shown. -/
theorem visibleSymbol_ne {shown : Char} (heffect : instruction.isNop = false)
    (hshown : (ofVisible shown).isNop = true) : instruction.visibleSymbol ≠ shown := by
  rintro rfl
  rw [ofVisible_visibleSymbol heffect, heffect] at hshown
  cases hshown

theorem isAlphanum_of_mem_mnemonic (instruction : Instruction) :
    ∀ c ∈ instruction.mnemonic.toList, c.isAlphanum = true := by
  apply List.all_eq_true.mp
  cases instruction with
  | shuffle kind => cases kind <;> decide
  | operate operator => cases operator <;> decide
  | print form => cases form <;> decide
  | read form => cases form <;> decide
  | _ => simp only [mnemonic]; decide

/-- A description is made of letters, digits and blanks. -/
theorem isAlphanum_of_mem_describe (instruction : Instruction) :
    ∀ c ∈ instruction.describe.toList, (c.isAlphanum || c == ' ') = true := by
  apply List.all_eq_true.mp
  cases instruction with
  | select letter =>
      rcases letter with ⟨index⟩
      revert index
      decide
  | transfer letter =>
      rcases letter with ⟨index⟩
      revert index
      decide
  | digit value =>
      revert value
      decide
  | _ =>
      apply List.all_eq_true.mpr
      intro c hmem
      rw [isAlphanum_of_mem_mnemonic _ c hmem, Bool.true_or]

end Instruction

namespace Palette

/-- The escape sequences of a palette. -/
def marks (palette : Palette) : List String :=
  [palette.heading, palette.register, palette.target, palette.faint, palette.reset]

/-- A character that is in none of the escape sequences. -/
def Lacks (palette : Palette) (c : Char) : Prop :=
  ∀ mark ∈ palette.marks, c ∉ mark.toList

instance (palette : Palette) (c : Char) : Decidable (palette.Lacks c) :=
  inferInstanceAs (Decidable (∀ mark ∈ palette.marks, c ∉ mark.toList))

theorem lacks_choose (colour : Bool) : (choose colour).Lacks '\n' ∧ (choose colour).Lacks '→' := by
  cases colour <;> decide

end Palette

namespace Instruction

/-- The palette adds nothing but its escape sequences. -/
theorem not_mem_highlighted {palette : Palette} {c : Char} (hpalette : palette.Lacks c)
    (hc : c.isAlphanum = false) (hblank : c ≠ ' ') (instruction : Instruction) :
    c ∉ (instruction.highlighted palette).toList := by
  have hdescribe : c ∉ instruction.describe.toList := by
    intro hmem
    have hdescribe := isAlphanum_of_mem_describe instruction c hmem
    rw [hc, Bool.false_or, beq_iff_eq] at hdescribe
    exact hblank hdescribe
  have hregister := hpalette palette.register (by simp [Palette.marks])
  have hreset := hpalette palette.reset (by simp [Palette.marks])
  unfold highlighted
  split
  · simp_all [describe]
  · simp_all [describe]
  · exact hdescribe

end Instruction

namespace Program

variable {program : Program} {palette : Palette} {width position : Nat} {instruction : Instruction}

/-! ## Lines -/

/-- The line of an instruction up to its description. -/
def lineStart (palette : Palette) (width position : Nat) (instruction : Instruction) : List Char :=
  ' ' :: ' ' :: (palette.faint.toList ++ Decimal.padded width position ++ palette.reset.toList ++
    ' ' :: ' ' :: instruction.visibleSymbol :: ' ' :: ' ' ::
      (instruction.highlighted palette).toList)

/-- The arrow behind the description of a loop bracket, up to what it points to. -/
def lineArrow (palette : Palette) (pointed : List Char) : List Char :=
  ' ' :: (palette.target.toList ++ '→' :: ' ' :: (pointed ++ palette.reset.toList))

theorem toList_listingLine (palette : Palette) (width : Nat) (table : LoopTable) (position : Nat)
    (instruction : Instruction) :
    (listingLine palette width table position instruction).toList =
      lineStart palette width position instruction ++
        if instruction.isLoopBracket then
          lineArrow palette (partnerText width (table.partner? position)).toList
        else [] := by
  unfold listingLine
  split <;> simp [lineStart, lineArrow, positionText]

theorem not_mem_lineStart (width position : Nat) {c : Char} (hpalette : palette.Lacks c)
    (hc : c.isAlphanum = false) (hblank : c ≠ ' ') (hshown : (Instruction.ofVisible c).isNop = true)
    (heffect : instruction.isNop = false) : c ∉ lineStart palette width position instruction := by
  have hfaint := hpalette palette.faint (by simp [Palette.marks])
  have hreset := hpalette palette.reset (by simp [Palette.marks])
  have hposition : c ∉ Decimal.padded width position := by
    intro hmem
    have hdigit := Decimal.allDigits_padded width position c hmem
    rw [Char.isAlphanum, hdigit, Bool.or_true] at hc
    cases hc
  have hsymbol := Instruction.visibleSymbol_ne heffect hshown
  have hdescription := Instruction.not_mem_highlighted hpalette hc hblank instruction
  simp [lineStart, hblank, hfaint, hposition, hreset, hsymbol.symm, hdescription]

/-- Positions are digits, and where there is none stands a question mark. -/
theorem not_mem_partnerText {c : Char} (width : Nat) (hc : c.isDigit = false) (hquestion : c ≠ '?')
    (partner? : Option Nat) : c ∉ (partnerText width partner?).toList := by
  cases partner? with
  | none => simpa [partnerText] using hquestion
  | some partner =>
      rw [partnerText, positionText, String.toList_ofList]
      intro hmem
      rw [Decimal.allDigits_padded width partner c hmem] at hc
      cases hc

theorem newline_not_mem_listingLine (hpalette : palette.Lacks '\n') {table : LoopTable}
    (heffect : instruction.isNop = false) :
    '\n' ∉ (listingLine palette width table position instruction).toList := by
  have hstart := not_mem_lineStart width position hpalette (by decide) (by decide)
    (by decide) heffect
  have hpartner := not_mem_partnerText (c := '\n') width (by decide) (by decide)
    (table.partner? position)
  have htarget := hpalette palette.target (by simp [Palette.marks])
  have hreset := hpalette palette.reset (by simp [Palette.marks])
  rw [toList_listingLine, List.mem_append, not_or]
  refine ⟨hstart, ?_⟩
  split
  · simp [lineArrow, htarget, hpartner, hreset]
  · exact List.not_mem_nil

/-! ## Lines read back -/

/-- The position and the instruction that a line shows. -/
def readLine (line : List Char) : Nat × Instruction :=
  let (places, rest) := Decimal.spanDigits (line.drop 2)
  (Decimal.value places, .ofVisible ((rest.drop 2).headD ' '))

/-- Zeros in front do not change the value of the digits, so that the width of their column does
not matter. -/
theorem readLine_listingLine (width : Nat) (table : LoopTable) (position : Nat)
    (heffect : instruction.isNop = false) :
    readLine (listingLine .plain width table position instruction).toList =
      (position, instruction) := by
  rw [toList_listingLine]
  generalize (if instruction.isLoopBracket then _ else _) = arrow
  let rest := ' ' :: ' ' :: instruction.visibleSymbol :: ' ' :: ' ' ::
    (instruction.highlighted .plain).toList ++ arrow
  have hline : (lineStart .plain width position instruction ++ arrow).drop 2 =
      Decimal.padded width position ++ rest := by
    simp [lineStart, rest, Palette.plain]
  have hrest : Decimal.spanDigits rest = ([], rest) :=
    Decimal.spanDigits_of_head (by simp [rest])
  rw [readLine, hline, Decimal.spanDigits_append (Decimal.allDigits_padded width position), hrest]
  simp [rest, Decimal.value_padded, Instruction.ofVisible_visibleSymbol heffect]

/-! ## The instructions that have an effect -/

/-- The instruction at a position, if it has an effect. -/
def effectAt? (program : Program) (position : Nat) : Option Instruction :=
  (program.get? position).filter fun instruction => !instruction.isNop

/-- The instructions that have an effect, with their positions. -/
def effects (program : Program) : List (Nat × Instruction) :=
  (program.instructions.toList.zipIdx.filter fun entry => !entry.1.isNop).map Prod.swap

theorem effectAt?_eq_some_iff : program.effectAt? position = some instruction ↔
    program.get? position = some instruction ∧ instruction.isNop = false := by
  rw [effectAt?, Option.filter_eq_some_iff, Bool.not_eq_true']

theorem mem_effects_iff : (position, instruction) ∈ program.effects ↔
    program.effectAt? position = some instruction := by
  rw [effects, List.mem_map_swap, List.mem_filter, List.mk_mem_zipIdx_iff_getElem?,
    ← get?_eq_toList_getElem?, effectAt?_eq_some_iff, Bool.not_eq_true']

theorem pairwise_effects (program : Program) : (program.effects.map Prod.fst).Pairwise (· < ·) := by
  have hpositions : program.effects.map Prod.fst =
      (program.instructions.toList.zipIdx.filter fun entry => !entry.1.isNop).map Prod.snd := by
    simp [effects]
  rw [hpositions]
  apply List.Pairwise.sublist (List.filter_sublist.map Prod.snd)
  rw [List.zipIdx_map_snd]
  exact List.pairwise_lt_range' 1

/-! ## The lines of a text -/

/-- Every line ends with a line feed. -/
def joinLines (lines : List (List Char)) : List Char :=
  lines.flatMap (· ++ ['\n'])

theorem joinLines_cons (line : List Char) (lines : List (List Char)) :
    joinLines (line :: lines) = line ++ '\n' :: joinLines lines := by
  simp [joinLines]

/-- Lines without line feeds are found again, and nothing stands behind the last of them. -/
theorem splitOn_joinLines {lines : List (List Char)} (hlines : ∀ line ∈ lines, '\n' ∉ line) :
    (joinLines lines).splitOn '\n' = lines ++ [[]] := by
  have hjoin : joinLines lines = ['\n'].intercalate (lines ++ [[]]) := by
    clear hlines
    induction lines with
    | nil => rfl
    | cons line lines ih =>
        rw [joinLines_cons, ih, List.cons_append, List.intercalate_cons_of_ne_nil (by simp),
          List.append_assoc, List.singleton_append]
  rw [hjoin]
  apply List.splitOn_intercalate
  · simpa [or_imp, forall_and] using hlines
  · simp

/-- What does not go over a line feed stands within a line. -/
theorem isInfix_joinLines_iff {pattern : List Char} (hnonempty : pattern ≠ [])
    (hpattern : '\n' ∉ pattern) (lines : List (List Char)) :
    pattern <:+: joinLines lines ↔ ∃ line ∈ lines, pattern <:+: line := by
  induction lines with
  | nil => simpa [joinLines] using hnonempty
  | cons line lines ih =>
      have hback {back rest : List Char} (hsub : back ⊆ pattern) (hback : back <+: '\n' :: rest) :
          back = [] := by
        cases back with
        | nil => rfl
        | cons c back =>
            obtain ⟨rfl, -⟩ := List.cons_prefix_cons.mp hback
            exact absurd (hsub List.mem_cons_self) hpattern
      rw [joinLines_cons, List.infix_append_iff, List.infix_cons_iff, ih]
      constructor
      · rintro (hline | (hfirst | hrest) | ⟨front, back, rfl, hfront, hlast⟩)
        · exact ⟨line, List.mem_cons_self, hline⟩
        · exact absurd (hback (List.Subset.refl _) hfirst) hnonempty
        · obtain ⟨other, hmem, hoccurs⟩ := hrest
          exact ⟨other, List.mem_cons_of_mem line hmem, hoccurs⟩
        · rw [hback (List.subset_append_right front back) hlast, List.append_nil]
          exact ⟨line, List.mem_cons_self, hfront.isInfix⟩
      · rintro ⟨other, hmem, hoccurs⟩
        rcases List.mem_cons.mp hmem with rfl | hmem
        · exact Or.inl hoccurs
        · exact Or.inr (Or.inl (Or.inr ⟨other, hmem, hoccurs⟩))

/-! ## Brackets without a partner -/

/-- What a listing shows at a loop bracket without a partner. -/
def missingPartner : List Char := ['→', ' ', '?']

theorem isInfix_append_arrow_iff {front back : List Char} (hfront : '→' ∉ front)
    (hback : '→' ∉ back) :
    missingPartner <:+: front ++ '→' :: back ↔ [' ', '?'] <+: back := by
  constructor
  · rintro ⟨before, after, heq⟩
    have hsplit : front ++ '→' :: back = before ++ '→' :: ([' ', '?'] ++ after) := by
      rw [← heq]
      simp [missingPartner]
    obtain ⟨-, -, hafter⟩ := (List.append_cons_inj_of_notMem hfront hback).mp hsplit
    exact ⟨after, hafter.symm⟩
  · rintro ⟨after, rfl⟩
    exact ⟨front, after, by simp [missingPartner]⟩

theorem not_isInfix_of_not_mem {text : List Char} (htext : '→' ∉ text) :
    ¬missingPartner <:+: text :=
  fun hoccurs => htext (hoccurs.subset (by decide))

/-- A partner is shown by digits. -/
theorem question_isPrefix_partnerText_iff {partner? : Option Nat} {rest : List Char} :
    ['?'] <+: (partnerText width partner?).toList ++ rest ↔ partner? = none := by
  cases partner? with
  | none => simp [partnerText]
  | some partner =>
      rw [partnerText, positionText, String.toList_ofList]
      have hdigits := Decimal.allDigits_padded width partner
      cases hpadded : Decimal.padded width partner with
      | nil =>
          have hnonempty := Decimal.digits_ne_nil partner
          rw [Decimal.padded, List.append_eq_nil_iff] at hpadded
          exact absurd hpadded.2 hnonempty
      | cons digit digits =>
          have hdigit := hdigits digit (by simp [hpadded])
          have hne : '?' ≠ digit := by
            rintro rfl
            exact absurd hdigit (by decide)
          simp [hne]

theorem isInfix_listingLine_iff (hpalette : palette.Lacks '→') {table : LoopTable}
    (heffect : instruction.isNop = false) :
    missingPartner <:+: (listingLine palette width table position instruction).toList ↔
      instruction.isLoopBracket = true ∧ table.partner? position = none := by
  have hstart := not_mem_lineStart width position hpalette (by decide) (by decide)
    (by decide) heffect
  have hpartner := not_mem_partnerText (c := '→') width (by decide) (by decide)
    (table.partner? position)
  have htarget := hpalette palette.target (by simp [Palette.marks])
  have hreset := hpalette palette.reset (by simp [Palette.marks])
  rw [toList_listingLine]
  cases hbracket : instruction.isLoopBracket with
  | false =>
      simp only [Bool.false_eq_true, if_false, List.append_nil, false_and, iff_false]
      exact not_isInfix_of_not_mem hstart
  | true =>
      let before := lineStart palette width position instruction ++ ' ' :: palette.target.toList
      let behind := (partnerText width (table.partner? position)).toList ++ palette.reset.toList
      have hline : lineStart palette width position instruction ++
          lineArrow palette (partnerText width (table.partner? position)).toList =
            before ++ '→' :: ' ' :: behind := by
        simp [before, behind, lineArrow]
      have hbefore : '→' ∉ before := by simp [before, hstart, htarget]
      have hbehind : '→' ∉ ' ' :: behind := by simp [behind, hpartner, hreset]
      rw [if_pos rfl, hline, isInfix_append_arrow_iff hbefore hbehind, List.cons_prefix_cons,
        question_isPrefix_partnerText_iff]
      simp

theorem issueAt?_eq_some_iff {table : LoopTable} {issue : StructureIssue} :
    issueAt? table position instruction = some issue ↔
      instruction.isLoopBracket = true ∧ table.partner? position = none ∧
        (if instruction = .loopOpen then .unclosedOpen position else .unmatchedClose position) =
          issue := by
  cases instruction with
  | loopOpen => simp [issueAt?, Instruction.isLoopBracket]
  | loopClose => simp [issueAt?, Instruction.isLoopBracket]
  | _ => simp [issueAt?, Instruction.isLoopBracket]

/-- A bracket is reported exactly if it has no partner. -/
theorem exists_issue_iff : (∃ issue ∈ program.issues, issue.position = position) ↔
    ∃ instruction, program.get? position = some instruction ∧ instruction.isLoopBracket = true ∧
      program.loops.partner? position = none := by
  simp only [mem_issues_iff, issueAt?_eq_some_iff]
  constructor
  · rintro ⟨issue, ⟨found, instruction, hget, hbracket, hpartner, rfl⟩, hposition⟩
    have hfound : found = position := by
      rw [← hposition]
      split <;> rfl
    subst hfound
    exact ⟨instruction, hget, hbracket, hpartner⟩
  · rintro ⟨instruction, hget, hbracket, hpartner⟩
    refine ⟨_, ⟨position, instruction, hget, hbracket, hpartner, rfl⟩, ?_⟩
    split <;> rfl

theorem issues_ne_nil_iff : program.issues ≠ [] ↔
    ∃ position instruction, program.get? position = some instruction ∧
      instruction.isLoopBracket = true ∧ program.loops.partner? position = none := by
  simp only [← exists_issue_iff]
  constructor
  · intro hissues
    obtain ⟨issue, hmem⟩ := List.exists_mem_of_ne_nil _ hissues
    exact ⟨issue.position, issue, hmem, rfl⟩
  · rintro ⟨_, issue, hmem, -⟩
    exact List.ne_nil_of_mem hmem

theorem isNop_of_mem_effects {entry : Nat × Instruction} (hentry : entry ∈ program.effects) :
    entry.2.isNop = false :=
  (effectAt?_eq_some_iff.mp (mem_effects_iff.mp hentry)).2

theorem isNop_of_isLoopBracket (hbracket : instruction.isLoopBracket = true) :
    instruction.isNop = false := by
  rcases Instruction.eq_or_eq_of_isLoopBracket hbracket with rfl | rfl <;> rfl

/-! ## Whole listings -/

section Listings

variable [Logarithm]

theorem listingLines_eq (palette : Palette) (program : Program) :
    program.listingLines palette = (palette.heading ++ "[code]" ++ palette.reset) ::
      program.effects.map fun entry =>
        listingLine palette program.positionWidth program.loops entry.1 entry.2 := by
  rw [listingLines, effects, List.map_map]
  congr 1
  rw [← List.filterMap_eq_map, List.filterMap_filter]
  congr 1
  funext ⟨instruction, position⟩
  cases hnop : instruction.isNop <;> simp [hnop]

theorem toList_listing (palette : Palette) (program : Program) :
    (program.listing palette).toList =
      joinLines ((program.listingLines palette).map String.toList) := by
  simp [listing, joinLines, List.flatMap_map]

/-- The line of an instruction in the listing without colours. -/
def lineOf (program : Program) (entry : Nat × Instruction) : List Char :=
  (listingLine .plain program.positionWidth program.loops entry.1 entry.2).toList

theorem splitOn_listing (program : Program) :
    (program.listing .plain).toList.splitOn '\n' =
      ['[', 'c', 'o', 'd', 'e', ']'] :: program.effects.map program.lineOf ++ [[]] := by
  rw [toList_listing, splitOn_joinLines, listingLines_eq]
  · simp [Palette.plain, lineOf]
  · rw [listingLines_eq]
    simp only [List.map_cons, List.mem_cons, List.map_map, List.mem_map]
    rintro line (rfl | ⟨entry, hentry, rfl⟩)
    · decide
    · exact newline_not_mem_listingLine (Palette.lacks_choose false).1 (isNop_of_mem_effects hentry)

/-- The instructions that the lines of a listing show, with their positions. -/
def readListing (text : List Char) : List (Nat × Instruction) :=
  (text.splitOn '\n').tail.dropLast.map readLine

/-- A listing shows every instruction with an effect. -/
theorem readListing_listing (program : Program) :
    readListing (program.listing .plain).toList = program.effects := by
  rw [readListing, splitOn_listing, List.cons_append, List.tail_cons, List.dropLast_concat,
    List.map_map]
  have hread : ∀ entry ∈ program.effects, readLine (program.lineOf entry) = entry :=
    fun entry hentry => readLine_listingLine _ _ _ (isNop_of_mem_effects hentry)
  exact (List.map_congr_left hread).trans (List.map_id _)

theorem effectAt?_eq_of_listing_eq {other : Program}
    (heq : program.listing .plain = other.listing .plain) (position : Nat) :
    program.effectAt? position = other.effectAt? position := by
  have heffects : program.effects = other.effects := by
    rw [← readListing_listing, ← readListing_listing, heq]
  apply Option.ext
  intro instruction
  rw [← mem_effects_iff, ← mem_effects_iff, heffects]

theorem isInfix_listing_iff (hpalette : palette.Lacks '→') (program : Program) :
    missingPartner <:+: (program.listing palette).toList ↔ program.issues ≠ [] := by
  have hheading : '→' ∉ (palette.heading ++ "[code]" ++ palette.reset).toList := by
    have hmark := hpalette palette.heading (by simp [Palette.marks])
    have hreset := hpalette palette.reset (by simp [Palette.marks])
    simp [hmark, hreset]
  rw [toList_listing, isInfix_joinLines_iff (by decide) (by decide), listingLines_eq,
    issues_ne_nil_iff]
  simp only [List.map_cons, List.map_map, List.mem_cons, List.mem_map, exists_eq_or_imp,
    not_isInfix_of_not_mem hheading, false_or]
  constructor
  · rintro ⟨line, ⟨⟨position, instruction⟩, hentry, rfl⟩, hoccurs⟩
    obtain ⟨hget, heffect⟩ := effectAt?_eq_some_iff.mp (mem_effects_iff.mp hentry)
    exact ⟨position, instruction, hget, (isInfix_listingLine_iff hpalette heffect).mp hoccurs⟩
  · rintro ⟨position, instruction, hget, hissue⟩
    have heffect := isNop_of_isLoopBracket hissue.1
    exact ⟨_, ⟨(position, instruction), mem_effects_iff.mpr (effectAt?_eq_some_iff.mpr
      ⟨hget, heffect⟩), rfl⟩, (isInfix_listingLine_iff hpalette heffect).mpr hissue⟩

/-! ## What a listing shows of its program -/

/-- A line without colours up to the description of its instruction. -/
def plainStart (width position : Nat) (instruction : Instruction) : List Char :=
  ' ' :: ' ' :: (Decimal.padded width position ++ ' ' :: ' ' :: instruction.visibleSymbol ::
    ' ' :: ' ' :: instruction.describe.toList)

theorem lineOf_eq (program : Program) (position : Nat) (instruction : Instruction) :
    program.lineOf (position, instruction) =
      plainStart program.positionWidth position instruction ++
        if instruction.isLoopBracket then
          ' ' :: '→' :: ' ' ::
            (partnerText program.positionWidth (program.loops.partner? position)).toList
        else [] := by
  have hdescription : (instruction.highlighted .plain).toList = instruction.describe.toList := by
    cases instruction <;> simp [Instruction.highlighted, Instruction.describe, Palette.plain]
  rw [lineOf, toList_listingLine, lineStart, lineArrow, hdescription]
  simp [plainStart, Palette.plain]

/-- What the listing of a program without colours shows of it. -/
structure ListedFaithfully (program : Program) : Prop where
  /-- Programs with the same listing have the same instructions with an effect. -/
  effectAt?_eq : ∀ other : Program, other.listing .plain = program.listing .plain →
    ∀ position, other.effectAt? position = program.effectAt? position
  /-- Behind the heading there is one line for each of them, in the order of the program. -/
  lines_eq : ∃ entries : List (Nat × Instruction), (entries.map Prod.fst).Pairwise (· < ·) ∧
    (∀ position instruction, (position, instruction) ∈ entries ↔
      program.effectAt? position = some instruction) ∧
    (program.listing .plain).toList.splitOn '\n' =
      ['[', 'c', 'o', 'd', 'e', ']'] :: entries.map program.lineOf ++ [[]]
  lineOf_other : ∀ position instruction, instruction.isLoopBracket = false →
    program.lineOf (position, instruction) =
      plainStart program.positionWidth position instruction
  /-- The line of a loop bracket ends in its partner. -/
  lineOf_paired : ∀ position instruction partner, instruction.isLoopBracket = true →
    program.loops.partner? position = some partner →
    program.lineOf (position, instruction) =
      plainStart program.positionWidth position instruction ++
        ' ' :: '→' :: ' ' :: Decimal.padded program.positionWidth partner
  /-- It ends in a question mark exactly if the bracket is reported. -/
  missingPartner_iff : ∀ position instruction, program.get? position = some instruction →
    instruction.isLoopBracket = true →
    (missingPartner <:+ program.lineOf (position, instruction) ↔
      ∃ issue ∈ program.issues, issue.position = position)

theorem isSuffix_lineOf_iff (hget : program.get? position = some instruction)
    (hbracket : instruction.isLoopBracket = true) :
    missingPartner <:+ program.lineOf (position, instruction) ↔
      ∃ issue ∈ program.issues, issue.position = position := by
  have hpartner : (∃ issue ∈ program.issues, issue.position = position) ↔
      program.loops.partner? position = none := by
    rw [exists_issue_iff]
    simp [hget, hbracket]
  rw [hpartner]
  constructor
  · intro hsuffix
    have heffect := isNop_of_isLoopBracket hbracket
    exact ((isInfix_listingLine_iff (Palette.lacks_choose false).2 heffect).mp
      hsuffix.isInfix).2
  · intro hnone
    rw [lineOf_eq, if_pos hbracket, hnone]
    exact ⟨plainStart program.positionWidth position instruction ++ [' '], by
      simp [missingPartner, partnerText]⟩

theorem listedFaithfully (program : Program) : ListedFaithfully program where
  effectAt?_eq _ heq := effectAt?_eq_of_listing_eq heq
  lines_eq := ⟨program.effects, pairwise_effects program, fun _ _ => mem_effects_iff,
    splitOn_listing program⟩
  lineOf_other position instruction hbracket := by
    rw [lineOf_eq, hbracket, if_neg Bool.false_ne_true, List.append_nil]
  lineOf_paired position instruction partner hbracket hpartner := by
    rw [lineOf_eq, if_pos hbracket, hpartner, partnerText, positionText, String.toList_ofList]
  missingPartner_iff _ _ hget hbracket := isSuffix_lineOf_iff hget hbracket

end Listings

end Program

namespace CommandLine

variable [Logarithm]

/-- A program in a file fails the check exactly if its listing shows a bracket without a partner. -/
def ChecksListing (world : World) (program : Program) : Prop :=
  ∀ path colour, world.load path = .ok program →
    ∃ checked listed,
      (Task.check world ({} : OutputBuffer) ⟨path⟩).response? = some checked ∧
      (Task.dump world ({} : OutputBuffer) ⟨path, colour⟩).response? = some listed ∧
      listed.exit = 0 ∧ (checked.exit = 1 ↔ Program.missingPartner <:+: Utf8.decode listed.stdout)

theorem checksListing (world : World) (program : Program) : ChecksListing world program := by
  intro path colour hload
  have hlacks := (Palette.lacks_choose (world.colours colour)).2
  rw [Task.check, Task.dump, hload]
  refine ⟨_, _, rfl, rfl, rfl, ?_⟩
  let palette := Palette.choose (world.colours colour)
  let shown := (Utf8.encode (program.listing palette).toList)
  have hshown : (({} : OutputBuffer).append shown).written = shown :=
    OutputBuffer.written_append shown {}
  change _ ↔ Program.missingPartner <:+: Utf8.decode (({} : OutputBuffer).append shown).written
  rw [hshown, Utf8.decode_encode, Program.isInfix_listing_iff hlacks]
  cases program.issues <;> simp

/-- **A listing shows faithfully what has an effect in a program, and what a check reports.** -/
theorem listing_faithful (world : World) (program : Program) :
    program.ListedFaithfully ∧ ChecksListing world program :=
  ⟨program.listedFaithfully, checksListing world program⟩

end CommandLine

end LetterMachine
