import LetterMachine.Proofs.Answers
import LetterMachine.Proofs.IndexColumns
import LetterMachine.Proofs.Listings
import LetterMachine.Proofs.Reports
import LetterMachine.Proofs.ValueTexts
import Mathlib.Data.Option.Basic

/-!
# Colours are only decoration

Without its escape sequences, coloured text is the plain text.  `Decorates` puts the two side by
side: character for character they are the same, and before any character, and at the end, there may
be a sequence in the coloured text.  No character of the plain text starts a sequence itself, so
nothing but decoration is deleted and nothing of it is left.

A program may well have escape characters in it.  They have no effect, and what has no effect is
shown neither in a listing nor in a trace.

The lines without colours stand in columns.  A line of a listing begins with a position, and so does
the line of an instruction in a trace; what belongs to the instruction stands below it, and begins
where the content of its line does if the position fills its column.
-/

namespace LetterMachine

/-! ## Deleting the sequences -/

/-- What follows the escape sequence at the front of a text, if there is one there: the escape
character, an opening bracket, digits and the letter `m`. -/
def afterSequence? : List Char → Option (List Char)
  | '\x1b' :: '[' :: text =>
    match Decimal.spanDigits text with
    | (_ :: _, 'm' :: rest) => some rest
    | _ => none
  | _ => none

theorem length_afterSequence?_lt {text rest : List Char} (hrest : afterSequence? text = some rest) :
    rest.length < text.length := by
  unfold afterSequence? at hrest
  split at hrest
  · rename_i behind
    split at hrest
    · rename_i hspan
      have hsplit := Decimal.spanDigits_split behind
      obtain rfl := Option.some.inj hrest
      rw [hspan] at hsplit
      have hlength := congrArg List.length hsplit
      simp only [List.length_append, List.length_cons] at hlength ⊢
      omega
    · cases hrest
  · cases hrest

/-- The text with every escape sequence deleted, from left to right. -/
def withoutSequences : List Char → List Char
  | [] => []
  | c :: text =>
    match hafter : afterSequence? (c :: text) with
    | some rest =>
      have : rest.length < text.length + 1 := length_afterSequence?_lt hafter
      withoutSequences rest
    | none => c :: withoutSequences text
termination_by text => text.length

theorem withoutSequences_cons {c : Char} (hc : c ≠ '\x1b') (text : List Char) :
    withoutSequences (c :: text) = c :: withoutSequences text := by
  have hnone : afterSequence? (c :: text) = none := by
    unfold afterSequence?
    split
    · rename_i heq
      exact absurd (List.cons.inj heq).1 hc
    · rfl
  rw [withoutSequences]
  split
  · rename_i hsome
    rw [hnone] at hsome
    cases hsome
  · rfl

theorem withoutSequences_sequence {digits : List Char} (hdigits : Decimal.AllDigits digits)
    (hnonempty : digits ≠ []) (text : List Char) :
    withoutSequences ('\x1b' :: '[' :: (digits ++ 'm' :: text)) = withoutSequences text := by
  have hsome : afterSequence? ('\x1b' :: '[' :: (digits ++ 'm' :: text)) = some text := by
    have hstop : Decimal.spanDigits ('m' :: text) = ([], 'm' :: text) :=
      Decimal.spanDigits_of_head (by simp)
    obtain ⟨digit, others, rfl⟩ := List.exists_cons_of_ne_nil hnonempty
    simp only [afterSequence?, Decimal.spanDigits_append hdigits, hstop, List.append_nil]
  rw [withoutSequences]
  split
  · rename_i hafter
    exact congrArg withoutSequences (Option.some.inj (hafter.symm.trans hsome))
  · rename_i hafter
    rw [hsome] at hafter
    cases hafter

/-- Deletes the escape sequences of a line. -/
def stripped (line : String) : String :=
  String.ofList (withoutSequences line.toList)

/-! ## Decorated text -/

/-- A text with escape sequences in it, and the same text without them. -/
inductive Decorated : List Char → List Char → Prop where
  | nil : Decorated [] []
  | cons {c : Char} {text plain : List Char} (hc : c ≠ '\x1b') (htext : Decorated text plain) :
      Decorated (c :: text) (c :: plain)
  | sequence {digits text plain : List Char} (hdigits : Decimal.AllDigits digits)
      (hnonempty : digits ≠ []) (htext : Decorated text plain) :
      Decorated ('\x1b' :: '[' :: (digits ++ 'm' :: text)) plain

theorem Decorated.withoutSequences_append {front plain : List Char}
    (hfront : Decorated front plain) (text : List Char) :
    withoutSequences (front ++ text) = plain ++ withoutSequences text := by
  induction hfront with
  | nil => rfl
  | cons hc _ ih => rw [List.cons_append, withoutSequences_cons hc, ih, List.cons_append]
  | sequence hdigits hnonempty _ ih =>
      rw [List.cons_append, List.cons_append, List.append_assoc, List.cons_append,
        withoutSequences_sequence hdigits hnonempty, ih]

/-- There is nothing to be deleted from the plain text. -/
theorem Decorated.escape_not_mem {text plain : List Char} (htext : Decorated text plain) :
    '\x1b' ∉ plain := by
  induction htext with
  | nil => exact List.not_mem_nil
  | cons hc _ ih => exact mt List.mem_cons.mp (not_or.mpr ⟨hc.symm, ih⟩)
  | sequence _ _ _ ih => exact ih

theorem Decorated.append {front plain back plain' : List Char} (hfront : Decorated front plain)
    (hback : Decorated back plain') : Decorated (front ++ back) (plain ++ plain') := by
  induction hfront with
  | nil => exact hback
  | cons hc _ ih => exact .cons hc ih
  | sequence hdigits hnonempty _ ih =>
      rw [List.cons_append, List.cons_append, List.append_assoc, List.cons_append]
      exact .sequence hdigits hnonempty ih

theorem Decorated.refl {text : List Char} (htext : '\x1b' ∉ text) : Decorated text text := by
  induction text with
  | nil => exact .nil
  | cons c text ih =>
      obtain ⟨hc, hrest⟩ := not_or.mp (mt List.mem_cons.mpr htext)
      exact .cons (Ne.symm hc) (ih hrest)

/-- One line is the other with escape sequences in it. -/
def Decorates (line plain : String) : Prop :=
  Decorated line.toList plain.toList

namespace Decorates

variable {front front' back back' line plain : String}

theorem stripped_append (hfront : Decorates front plain) (line : String) :
    stripped (front ++ line) = plain ++ stripped line := by
  rw [stripped, String.toList_append, hfront.withoutSequences_append, String.ofList_append,
    String.ofList_toList, stripped]

theorem stripped_eq (hline : Decorates line plain) : stripped line = plain := by
  have hempty : stripped "" = "" := by
    rw [stripped, String.toList_empty, withoutSequences, String.ofList_nil]
  have happend := hline.stripped_append ""
  rwa [hempty, String.append_empty, String.append_empty] at happend

theorem append (hfront : Decorates front front') (hback : Decorates back back') :
    Decorates (front ++ back) (front' ++ back') := by
  rw [Decorates, String.toList_append, String.toList_append]
  exact Decorated.append hfront hback

theorem refl (hline : '\x1b' ∉ line.toList) : Decorates line line :=
  Decorated.refl hline

/-- The escape character is not among the characters of a text. -/
theorem of_forall (keep : Char → Bool) (hkeep : keep '\x1b' = false)
    (hline : ∀ c ∈ line.toList, keep c = true) : Decorates line line := by
  apply refl
  intro hmem
  rw [hline _ hmem] at hkeep
  cases hkeep

/-- Nothing is left of a sequence. -/
theorem sequence (digits : List Char) (hdigits : digits.all Char.isDigit = true)
    (hnonempty : digits ≠ []) (hline : line.toList = '\x1b' :: '[' :: (digits ++ ['m'])) :
    Decorates line "" := by
  rw [Decorates, hline]
  exact Decorated.sequence (List.all_eq_true.mp hdigits) hnonempty .nil

/-- Lines of text that correspond to each other, put one behind the other. -/
theorem join {lines lines' : List String} (hlines : List.Forall₂ Decorates lines lines') :
    Decorates (String.join lines) (String.join lines') := by
  induction hlines with
  | nil => exact Decorated.nil
  | cons hline _ ih =>
      rw [String.join_cons, String.join_cons]
      exact hline.append ih

/-- Texts without escape characters, with a separator between them. -/
theorem intercalate {separator : String} (hseparator : Decorates separator separator)
    {lines : List String} (hlines : ∀ line ∈ lines, Decorates line line) :
    Decorates (separator.intercalate lines) (separator.intercalate lines) := by
  induction lines with
  | nil => exact Decorated.nil
  | cons line lines ih =>
      obtain ⟨hline, hothers⟩ := List.forall_mem_cons.mp hlines
      by_cases hlast : lines = []
      · rw [hlast, String.intercalate_singleton]
        exact hline
      · rw [String.intercalate_cons_of_ne_nil hlast]
        exact (hline.append hseparator).append (ih hothers)

end Decorates

/-! ## Palettes -/

/-- The sequences of a palette leave nothing behind. -/
structure Palette.Vanishes (palette : Palette) : Prop where
  heading : Decorates palette.heading ""
  register : Decorates palette.register ""
  target : Decorates palette.target ""
  faint : Decorates palette.faint ""
  reset : Decorates palette.reset ""

theorem Palette.vanishes_coloured : coloured.Vanishes where
  heading := .sequence ['1'] (by decide) (by decide) (by decide)
  register := .sequence ['3', '4'] (by decide) (by decide) (by decide)
  target := .sequence ['3', '2'] (by decide) (by decide) (by decide)
  faint := .sequence ['2'] (by decide) (by decide) (by decide)
  reset := .sequence ['0'] (by decide) (by decide) (by decide)

/-! ## Parts of lines -/

theorem Letter.decorates_text (letter : Letter) : Decorates letter.text letter.text := by
  apply Decorates.refl
  rcases letter with ⟨index⟩
  revert index
  decide

theorem Program.decorates_positionText (width position : Nat) :
    Decorates (positionText width position) (positionText width position) := by
  apply Decorates.of_forall Char.isDigit (by decide)
  rw [positionText, String.toList_ofList]
  exact Decimal.allDigits_padded width position

theorem Value.decorates_text (value : Value) : Decorates value.text value.text := by
  apply Decorates.of_forall Decimal.inNumeral (by decide)
  rw [text, String.toList_ofList]
  exact inNumeral_styled isNumeral_traceStyle value

theorem decorates_repr (number : Nat) : Decorates number.repr number.repr := by
  apply Decorates.of_forall Char.isDigit (by decide)
  rw [Nat.toList_repr]
  exact Decimal.allDigits_digits number

/-- The column of positions that lines of listings and traces begin with. -/
theorem Palette.Vanishes.decorates_position {palette : Palette} (hpalette : palette.Vanishes)
    (width position : Nat) :
    Decorates ("  " ++ palette.faint ++ Program.positionText width position ++ palette.reset)
      ("  " ++ plain.faint ++ Program.positionText width position ++ plain.reset) := by
  have hindent : Decorates "  " "  " := .refl (by decide)
  exact ((hindent.append hpalette.faint).append
    (Program.decorates_positionText width position)).append hpalette.reset

namespace Instruction

variable {palette : Palette} {instruction : Instruction}

theorem decorates_mnemonic (instruction : Instruction) :
    Decorates instruction.mnemonic instruction.mnemonic :=
  .of_forall Char.isAlphanum (by decide) (isAlphanum_of_mem_mnemonic instruction)

theorem decorates_describe (instruction : Instruction) :
    Decorates instruction.describe instruction.describe :=
  .of_forall (fun c => c.isAlphanum || c == ' ') (by decide)
    (isAlphanum_of_mem_describe instruction)

/-- A program may have escape characters in it, but they are not shown. -/
theorem decorates_visibleSymbol (heffect : instruction.isNop = false) :
    Decorates instruction.visibleSymbol.toString instruction.visibleSymbol.toString := by
  have hsymbol := visibleSymbol_ne heffect (by decide : (ofVisible '\x1b').isNop = true)
  apply Decorates.refl
  simpa using hsymbol.symm

theorem decorates_highlighted (hpalette : palette.Vanishes) (instruction : Instruction) :
    Decorates (instruction.highlighted palette) (instruction.highlighted .plain) := by
  have hname : Decorates (instruction.mnemonic ++ " ") (instruction.mnemonic ++ " ") :=
    (decorates_mnemonic instruction).append (.refl (by decide))
  cases instruction with
  | select letter | transfer letter =>
      exact ((hname.append hpalette.register).append letter.decorates_text).append hpalette.reset
  | _ => exact decorates_describe _

end Instruction

/-! ## Listings -/

namespace Program

variable {palette : Palette} {instruction : Instruction}

theorem decorates_partnerText (width : Nat) (partner? : Option Nat) :
    Decorates (partnerText width partner?) (partnerText width partner?) := by
  cases partner? with
  | none => exact .refl (by simp [partnerText])
  | some partner => exact decorates_positionText width partner

theorem decorates_listingLine (hpalette : palette.Vanishes) (heffect : instruction.isNop = false)
    (width : Nat) (table : LoopTable) (position : Nat) :
    Decorates (listingLine palette width table position instruction)
      (listingLine .plain width table position instruction) := by
  have hindent : Decorates "  " "  " := .refl (by decide)
  have hentry := ((((hpalette.decorates_position width position).append hindent).append
    (Instruction.decorates_visibleSymbol heffect)).append hindent).append
      (Instruction.decorates_highlighted hpalette instruction)
  have hblank : Decorates " " " " := .refl (by decide)
  have harrow : Decorates "→ " "→ " := .refl (by decide)
  unfold listingLine
  split
  · exact ((((hentry.append hblank).append hpalette.target).append harrow).append
      (decorates_partnerText width (table.partner? position))).append hpalette.reset
  · exact hentry

theorem decorates_listing [Logarithm] (hpalette : palette.Vanishes) (program : Program) :
    Decorates (program.listing palette) (program.listing .plain) := by
  have hbreak : Decorates "\n" "\n" := .refl (by decide)
  have hheading : Decorates "[code]" "[code]" := .refl (by decide)
  rw [listing, listing, listingLines_eq, listingLines_eq]
  simp only [List.map_cons, List.map_map]
  apply Decorates.join
  refine .cons (((hpalette.heading.append hheading).append hpalette.reset).append hbreak) ?_
  rw [List.forall₂_map_left_iff, List.forall₂_map_right_iff, List.forall₂_same]
  intro entry hentry
  exact (decorates_listingLine hpalette (isNop_of_mem_effects hentry) _ _ _).append hbreak

end Program

/-! ## Traces -/

namespace TraceStyle

variable {style : TraceStyle} {instruction : Instruction}

/-- The style without colours. -/
def inPlain (style : TraceStyle) : TraceStyle :=
  { style with palette := .plain }

theorem decorates_instructionLine (hpalette : style.palette.Vanishes)
    (heffect : instruction.isNop = false) (position : Nat) {content plain : String}
    (hcontent : Decorates content plain) :
    Decorates (style.instructionLine position instruction content)
      (style.inPlain.instructionLine position instruction plain) := by
  have hblank : Decorates " " " " := .refl (by decide)
  exact ((((hpalette.decorates_position style.width position).append hblank).append
    (Instruction.decorates_visibleSymbol heffect)).append hblank).append hcontent

theorem decorates_indent (width : Nat) :
    Decorates (String.ofList (List.replicate (width + 5) ' '))
      (String.ofList (List.replicate (width + 5) ' ')) := by
  apply Decorates.of_forall (· == ' ') (by decide)
  simp

theorem decorates_subline (style : TraceStyle) {content plain : String}
    (hcontent : Decorates content plain) :
    Decorates (style.subline content) (style.inPlain.subline plain) := by
  exact (decorates_indent style.width).append hcontent

theorem decorates_jumpTarget (hpalette : style.palette.Vanishes) (position : Nat) :
    Decorates (style.jumpTarget position) (style.inPlain.jumpTarget position) :=
  (hpalette.target.append (Program.decorates_positionText style.width position)).append
    hpalette.reset

theorem decorates_registerText (hpalette : style.palette.Vanishes) (letter : Letter)
    (contents : Register) :
    Decorates (style.registerText letter contents)
      (style.inPlain.registerText letter contents) := by
  have hopen : Decorates ": [" ": [" := .refl (by decide)
  have hclose : Decorates "]" "]" := .refl (by decide)
  have hcomma : Decorates ", " ", " := .refl (by decide)
  have hvalues := hcomma.intercalate
    (List.forall_mem_map.mpr fun value (_ : value ∈ contents.toList) => value.decorates_text)
  exact ((((hpalette.register.append letter.decorates_text).append hpalette.reset).append
    hopen).append hvalues).append hclose

theorem decorates_skipText (hpalette : style.palette.Vanishes) (instruction : Instruction)
    (depth : Nat) :
    Decorates (style.skipText instruction depth) (style.inPlain.skipText instruction depth) := by
  have hskip : Decorates "skip " "skip " := .refl (by decide)
  have hopen : Decorates " (depth " " (depth " := .refl (by decide)
  have hclose : Decorates ")" ")" := .refl (by decide)
  exact (((((hpalette.faint.append hskip).append instruction.decorates_mnemonic).append
    hopen).append (decorates_repr depth)).append hclose).append hpalette.reset

theorem decorates_haltText (hpalette : style.palette.Vanishes) (steps : Nat) :
    Decorates (style.palette.faint ++ "halt after " ++ steps.repr ++ " steps" ++
        style.palette.reset)
      (Palette.plain.faint ++ "halt after " ++ steps.repr ++ " steps" ++ Palette.plain.reset) := by
  have hhalt : Decorates "halt after " "halt after " := .refl (by decide)
  have hsteps : Decorates " steps" " steps" := .refl (by decide)
  exact (((hpalette.faint.append hhalt).append (decorates_repr steps)).append hsteps).append
    hpalette.reset

theorem rel_ite {shown : Prop} [Decidable shown] {line plain : String}
    (hline : shown → Decorates line plain) :
    Option.Rel Decorates (if shown then some line else none)
      (if shown then some plain else none) := by
  split
  · rename_i hshown
    exact .some (hline hshown)
  · exact .none

/-- An event is shown in colours where it is shown without, by the same line. -/
theorem rel_line? (hpalette : style.palette.Vanishes) (event : Event) :
    Option.Rel Decorates (style.line? event) (style.inPlain.line? event) := by
  have hback : Decorates "↑ back to " "↑ back to " := .refl (by decide)
  have hresume : Decorates "→ resume at " "→ resume at " := .refl (by decide)
  have henter : Decorates "↓ enter loop (depth " "↓ enter loop (depth " := .refl (by decide)
  have hclose : Decorates ")" ")" := .refl (by decide)
  cases event with
  | instruction position instruction active =>
      cases heffect : instruction.isNop with
      | false =>
          simp only [line?, heffect, Bool.false_eq_true, if_false]
          exact .some (decorates_instructionLine hpalette heffect position
            (instruction.decorates_highlighted hpalette))
      | true =>
          simp only [line?, heffect, if_true]
          exact .none
  | register letter contents =>
      exact rel_ite fun _ =>
        style.decorates_subline (decorates_registerText hpalette letter contents)
  | skip position instruction depth =>
      apply rel_ite
      intro hshown
      rw [Bool.and_eq_true, Bool.not_eq_true'] at hshown
      exact decorates_instructionLine hpalette hshown.2 position
        (decorates_skipText hpalette instruction depth)
  | enter position depth =>
      exact .some (style.decorates_subline ((henter.append (decorates_repr depth)).append hclose))
  | pass position => exact .some (style.decorates_subline (.refl (by decide)))
  | back position start =>
      exact .some (style.decorates_subline (hback.append (decorates_jumpTarget hpalette start)))
  | leave position => exact .some (style.decorates_subline (.refl (by decide)))
  | resume position =>
      exact .some (style.decorates_subline
        (hresume.append (decorates_jumpTarget hpalette (position + 1))))
  | halt steps => exact .some (decorates_haltText hpalette steps)

theorem map_stripped_line? (hpalette : style.palette.Vanishes) (event : Event) :
    (style.line? event).map stripped = style.inPlain.line? event := by
  have hline := style.rel_line? hpalette event
  generalize style.line? event = line? at hline
  generalize style.inPlain.line? event = plain? at hline
  cases hline with
  | none => rfl
  | some hline => rw [Option.map_some, hline.stripped_eq]

theorem escape_not_mem_line? (hpalette : style.palette.Vanishes) {event : Event} {line : String}
    (hline : style.inPlain.line? event = some line) : '\x1b' ∉ line.toList := by
  have hrel := style.rel_line? hpalette event
  rw [hline] at hrel
  generalize style.line? event = line? at hrel
  cases hrel with
  | some hdecorates => exact hdecorates.escape_not_mem

end TraceStyle

/-! ## Columns -/

namespace Program

/-- What stands before the content of the plain line of an instruction in a trace. -/
def margin (width position : Nat) (instruction : Instruction) : String :=
  "  " ++ positionText width position ++ " " ++ instruction.visibleSymbol.toString ++ " "

/-- A plain line of a trace: it stands beside the position of an instruction, below such a line and
as far to the right as what stands there, or at the end. -/
inductive IsTraceLine (program : Program) (width : Nat) : String → Prop where
  | beside {position : Nat} {instruction : Instruction}
      (hget : program.get? position = some instruction) (content : String) :
      IsTraceLine program width (margin width position instruction ++ content)
  | below (content : String) :
      IsTraceLine program width (String.ofList (List.replicate (width + 5) ' ') ++ content)
  | halt (steps : Nat) : IsTraceLine program width ("halt after " ++ steps.repr ++ " steps")

variable {program : Program}

/-- What is told of a step is told of the instruction at its position. -/
theorem get?_of_mem_events {ι ο : Type} [Source ι] [Sink ο] {run : Run ι ο}
    (hsteps : run.control.steps = 0) {count : Nat} {event : Event}
    (hevent : event ∈ run.events program count) {mode : Mode} {position : Nat}
    {instruction : Instruction} (hvisit : event.visit? = some ⟨mode, position, some instruction⟩) :
    program.get? position = some instruction := by
  have hmem : ⟨mode, position, some instruction⟩ ∈
      (run.events program count).filterMap Event.visit? :=
    List.mem_filterMap.mpr ⟨event, hevent, hvisit⟩
  rw [Run.visits_events hsteps, List.mem_map] at hmem
  obtain ⟨earlier, -, hearlier⟩ := hmem
  rw [Run.visit, Visit.mk.injEq] at hearlier
  obtain ⟨-, rfl, hget⟩ := hearlier
  exact hget

theorem instructionLine_eq {style : TraceStyle} (hplain : style.palette = .plain) (position : Nat)
    (instruction : Instruction) (content : String) :
    style.instructionLine position instruction content =
      margin style.width position instruction ++ content := by
  simp [TraceStyle.instructionLine, margin, hplain, Palette.plain]

/-- Every event is shown by a line of this kind, if it is shown. -/
theorem isTraceLine_of_line? {style : TraceStyle} (hplain : style.palette = .plain) {event : Event}
    {line : String} (hline : style.line? event = some line)
    (hget : ∀ mode position instruction,
      event.visit? = some ⟨mode, position, some instruction⟩ →
        program.get? position = some instruction) :
    program.IsTraceLine style.width line := by
  unfold TraceStyle.line? at hline
  split at hline
  case h_1 position instruction active =>
    split at hline
    · cases hline
    · obtain rfl := Option.some.inj hline
      rw [instructionLine_eq hplain]
      exact .beside (hget _ _ _ rfl) _
  case h_2 letter contents =>
    split at hline
    · obtain rfl := Option.some.inj hline
      exact .below _
    · cases hline
  case h_3 position instruction depth =>
    split at hline
    · obtain rfl := Option.some.inj hline
      rw [instructionLine_eq hplain]
      exact .beside (hget _ _ _ rfl) _
    · cases hline
  case h_9 steps =>
    obtain rfl := Option.some.inj hline
    rw [hplain]
    simpa [Palette.plain] using IsTraceLine.halt steps
  all_goals
    obtain rfl := Option.some.inj hline
    exact .below _

end Program

/-! ## What colours change -/

namespace Program

variable {ι ο : Type} [Logarithm] {program : Program}

/-- A run that is followed for some steps, and the lines that trace it. -/
def traced [Source ι] [Sink ο] (program : Program) (verbosity : Verbosity) (run : Run ι ο)
    (count : Nat) (palette : Palette) : Run ι ο × Array String :=
  run.follow program (TraceStyle.ofProgram program verbosity palette).record count #[]

theorem traced_eq [Source ι] [Sink ο] (program : Program) (verbosity : Verbosity) (run : Run ι ο)
    (count : Nat) (palette : Palette) :
    program.traced verbosity run count palette = (run.after program count,
      ((run.events program count).filterMap
        (TraceStyle.ofProgram program verbosity palette).line?).toArray) := by
  rw [traced, Run.follow_eq]
  apply Prod.ext
  · rfl
  · apply Array.toList_inj.mp
    rw [TraceStyle.foldl_record, List.nil_append]

/-- Without its escape sequences, the coloured text about a program is the plain text, and there are
none in the plain text. -/
structure PlainUnderColours (program : Program) : Prop where
  listing : stripped (program.listing .coloured) = program.listing .plain ∧
    '\x1b' ∉ (program.listing .plain).toList
  /-- Behind its heading, a listing has a column of positions. -/
  listed : ∃ lines, (program.listing .plain).toList.splitOn '\n' =
      "[code]".toList :: lines ++ [[]] ∧
    ∀ line ∈ lines, ∃ position instruction, program.get? position = some instruction ∧
      plainStart program.positionWidth position instruction <+: line
  /-- A run is traced by the same lines, whatever it starts from and however far it goes. -/
  trace : ∀ (ι ο : Type) [Source ι] [Sink ο] (machine : Machine) (input : ι) (output : ο)
    (verbosity : Verbosity) (count : Nat),
    let traced := program.traced verbosity (machine.start input output) count
    (traced .coloured).1 = (traced .plain).1 ∧
      (traced .coloured).2.map stripped = (traced .plain).2 ∧
      ∀ line ∈ (traced .plain).2, '\x1b' ∉ line.toList ∧
        program.IsTraceLine program.positionWidth line
  /-- Every position fills its column, and what is shown below an instruction starts in the same
  column as what is shown beside it, if the logarithm is good enough. -/
  aligned : Logarithm.Accurate → program.size < UInt64.size →
    program.size ≤ 10 ^ 14 ∨ Logarithm.Increasing →
      ∀ position < program.size,
        (positionText program.positionWidth position).length = program.positionWidth ∧
        ∀ instruction,
          (margin program.positionWidth position instruction).length = program.positionWidth + 5

theorem length_positionText (haccurate : Logarithm.Accurate) (hsize : program.size < UInt64.size)
    (hcolumn : program.size ≤ 10 ^ 14 ∨ Logarithm.Increasing) {position : Nat}
    (hposition : position < program.size) :
    (positionText program.positionWidth position).length = program.positionWidth := by
  have hwidth := Decimal.indexWidth_fits haccurate (.ofNatLT program.size hsize)
  rw [UInt64.toNat_ofNatLT] at hwidth
  rw [positionText, String.length_ofList]
  cases hcolumn with
  | inl hsmall => exact (hwidth.fits (.inl hsmall)).filled position hposition
  | inr hincreasing => exact hwidth.filled hincreasing position hposition

omit [Logarithm] in
theorem length_margin {width position : Nat} (instruction : Instruction)
    (hfills : (positionText width position).length = width) :
    (margin width position instruction).length = width + 5 := by
  have hblanks : "  ".length = 2 ∧ " ".length = 1 := by decide
  have hsymbol : instruction.visibleSymbol.toString.length = 1 := by simp
  simp only [margin, String.length_append, hblanks, hfills, hsymbol]
  omega

/-- **Colours are only decoration.** -/
theorem plainUnderColours (program : Program) : program.PlainUnderColours where
  listing := by
    have hlisting := decorates_listing Palette.vanishes_coloured program
    exact ⟨hlisting.stripped_eq, hlisting.escape_not_mem⟩
  listed := by
    refine ⟨program.effects.map program.lineOf, splitOn_listing program, ?_⟩
    intro line hline
    obtain ⟨⟨position, instruction⟩, hentry, rfl⟩ := List.mem_map.mp hline
    have heffect := effectAt?_eq_some_iff.mp (mem_effects_iff.mp hentry)
    refine ⟨position, instruction, heffect.1, ?_⟩
    rw [lineOf_eq]
    exact List.prefix_append _ _
  trace ι ο _ _ machine input output verbosity count := by
    have hvanishes : (TraceStyle.ofProgram program verbosity .coloured).palette.Vanishes :=
      Palette.vanishes_coloured
    simp only [traced_eq, List.map_toArray, List.map_filterMap]
    refine ⟨trivial, ?_, ?_⟩
    · simp only [TraceStyle.map_stripped_line? hvanishes]
      rfl
    · intro line hline
      obtain ⟨event, hmem, hevent⟩ := List.mem_filterMap.mp (List.mem_toArray.mp hline)
      have hsteps : (machine.start input output).control.steps = 0 := rfl
      exact ⟨TraceStyle.escape_not_mem_line? hvanishes hevent,
        isTraceLine_of_line? rfl hevent fun _ _ _ => get?_of_mem_events hsteps hmem⟩
  aligned haccurate hsize hcolumn position hposition := by
    have hfills := length_positionText haccurate hsize hcolumn hposition
    exact ⟨hfills, fun instruction => length_margin instruction hfills⟩

end Program

end LetterMachine
