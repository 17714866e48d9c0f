import LetterMachine.Program
import Mathlib.Data.List.Basic

/-!
# The line that a program is read from

A program keeps the first line of its source text, character for character, and one line feed behind
it.  A carriage return is part of the break only if the line feed stands directly behind it: a text
that ends with one keeps it, until something puts a line feed there.  This is the one case in which
a program that is written out and read again is not the same program.
-/

namespace LetterMachine

namespace Program

/-- A text without the carriage return at its end, if there is one. -/
def dropReturn (text : List Char) : List Char :=
  if text.getLast? = some '\r' then text.dropLast else text

/-- A text up to its first line feed, without a carriage return directly before that, or all of a
text without line feeds. -/
def line (source : List Char) : List Char :=
  if '\n' ∈ source then dropReturn (source.takeWhile (· ≠ '\n')) else source

section Lines

variable {front text : List Char}

theorem dropReturn_append_return (text : List Char) : dropReturn (text ++ ['\r']) = text := by
  rw [dropReturn, if_pos List.getLast?_concat, List.dropLast_concat]

theorem dropReturn_of_getLast? (hlast : text.getLast? ≠ some '\r') : dropReturn text = text :=
  if_neg hlast

theorem dropReturn_eq_self_iff : dropReturn text = text ↔ text.getLast? ≠ some '\r' := by
  refine ⟨fun heq hlast => ?_, dropReturn_of_getLast?⟩
  obtain ⟨front, rfl⟩ := List.getLast?_eq_some_iff.mp hlast
  rw [dropReturn_append_return] at heq
  have hlength := congrArg List.length heq
  simp at hlength

theorem line_of_not_mem (hfront : '\n' ∉ front) : line front = front :=
  if_neg hfront

theorem line_append (hfront : '\n' ∉ front) (rest : List Char) :
    line (front ++ '\n' :: rest) = dropReturn front := by
  have hnone : ∀ c ∈ front, decide (c ≠ '\n') = true := by
    intro c hmem
    exact decide_eq_true (ne_of_mem_of_not_mem hmem hfront)
  rw [line, if_pos (by simp), List.takeWhile_append_of_pos hnone,
    List.takeWhile_cons_of_neg (by simp), List.append_nil]

/-- A text has no line feeds, or a first one. -/
theorem not_mem_or_eq_append (source : List Char) :
    '\n' ∉ source ∨ ∃ front rest, source = front ++ '\n' :: rest ∧ '\n' ∉ front := by
  by_cases hmem : '\n' ∈ source
  · exact .inr (List.eq_append_cons_of_mem hmem)
  · exact .inl hmem

theorem not_mem_dropReturn (hfront : '\n' ∉ front) : '\n' ∉ dropReturn front := by
  unfold dropReturn
  split
  · exact fun hmem => hfront (List.dropLast_subset _ hmem)
  · exact hfront

theorem not_mem_line (source : List Char) : '\n' ∉ line source := by
  rcases not_mem_or_eq_append source with hmem | ⟨front, rest, rfl, hfront⟩
  · rwa [line_of_not_mem hmem]
  · rw [line_append hfront]
    exact not_mem_dropReturn hfront

/-! ## The line that is read -/

theorem firstLine_of_not_mem (hfront : '\n' ∉ front) : firstLine front = front := by
  induction front with
  | nil => rfl
  | cons c front ih =>
      obtain ⟨hne, hrest⟩ := List.ne_and_not_mem_of_not_mem_cons hfront
      rw [firstLine, ih hrest]
      · exact fun h => hne h.symm
      · rintro rest - rfl
        exact hrest List.mem_cons_self

/-- The carriage return is looked for only at the last character before the line feed. -/
theorem firstLine_append (hfront : '\n' ∉ front) (rest : List Char) :
    firstLine (front ++ '\n' :: rest) = dropReturn front := by
  induction front with
  | nil => rfl
  | cons c front ih =>
      obtain ⟨hne, hmore⟩ := List.ne_and_not_mem_of_not_mem_cons hfront
      cases front with
      | nil =>
          by_cases hreturn : c = '\r'
          · subst hreturn
            rfl
          · rw [List.cons_append, List.nil_append, firstLine, firstLine,
              dropReturn_of_getLast? (by simpa using hreturn)]
            · exact fun h => hne h.symm
            · exact fun _ h => absurd h hreturn
      | cons d front =>
          have hd : d ≠ '\n' := fun h => hmore (h ▸ List.mem_cons_self)
          rw [List.cons_append, firstLine, ih hmore]
          · unfold dropReturn
            rw [List.getLast?_cons_cons, List.dropLast_cons_cons]
            split <;> rfl
          · exact fun h => hne h.symm
          · rintro rest - heq
            exact hd (List.cons.inj heq).1

theorem firstLine_eq_line (source : List Char) : firstLine source = line source := by
  rcases not_mem_or_eq_append source with hmem | ⟨front, rest, rfl, hfront⟩
  · rw [firstLine_of_not_mem hmem, line_of_not_mem hmem]
  · rw [firstLine_append hfront, line_append hfront]

end Lines

/-! ## The program on it -/

theorem ofSource_eq (source : List Char) : ofSource source = ofChars (line source ++ ['\n']) := by
  rw [ofSource, firstLine_eq_line]

theorem symbols_ofSource (source : List Char) :
    (ofSource source).symbols = line source ++ ['\n'] := by
  rw [ofSource_eq, symbols_ofChars]

/-- A program determines the line that it was read from. -/
theorem ofSource_eq_ofSource_iff {source other : List Char} :
    ofSource source = ofSource other ↔ line source = line other := by
  refine ⟨fun heq => ?_, fun heq => by rw [ofSource_eq, ofSource_eq, heq]⟩
  have hsymbols := congrArg symbols heq
  rw [symbols_ofSource, symbols_ofSource] at hsymbols
  exact List.append_cancel_right hsymbols

theorem get?_ofChars (characters : List Char) (position : Nat) :
    (ofChars characters).get? position = characters[position]?.map Instruction.ofChar := by
  simp [get?, ofChars]

/-- What the program of a source text has of that text. -/
structure KeepsFirstLine (source : List Char) : Prop where
  symbols_eq : (ofSource source).symbols = line source ++ ['\n']
  /-- Each instruction stands where its character does. -/
  get?_eq : ∀ position, (ofSource source).get? position =
    (line source ++ ['\n'])[position]?.map Instruction.ofChar
  /-- Both characters of a line break go, with all that is behind them. -/
  return_and_feed : '\n' ∉ source → ∀ rest,
    ofSource (source ++ '\r' :: '\n' :: rest) = ofSource source
  /-- A line feed takes with it a carriage return at the end of the text. -/
  feed : '\n' ∉ source → ∀ rest,
    (ofSource (source ++ '\n' :: rest) = ofSource source ↔ source.getLast? ≠ some '\r')
  read_again : ofSource (ofSource source).symbols = ofSource source ↔
    (line source).getLast? ≠ some '\r'

/-- **A program keeps exactly the first line of its source text.** -/
theorem keeps_first_line (source : List Char) : KeepsFirstLine source where
  symbols_eq := symbols_ofSource source
  get?_eq position := by
    rw [ofSource_eq, get?_ofChars]
  return_and_feed := by
    intro hsource rest
    have hreturn : '\n' ∉ source ++ ['\r'] := by simpa using hsource
    rw [List.append_cons, ofSource_eq_ofSource_iff, line_append hreturn, dropReturn_append_return,
      line_of_not_mem hsource]
  feed := by
    intro hsource rest
    rw [ofSource_eq_ofSource_iff, line_of_not_mem hsource, line_append hsource,
      dropReturn_eq_self_iff]
  read_again := by
    have hline := not_mem_line source
    rw [ofSource_eq_ofSource_iff, symbols_ofSource, line_append hline, dropReturn_eq_self_iff]

/-- The program of a text that ends with a carriage return loses it when it is read again. -/
example :
    let program := ofSource ['1', '\r', '\r', '\n', '2']
    program.symbols = ['1', '\r', '\n'] ∧ (ofSource program.symbols).symbols = ['1', '\n'] := by
  decide

end Program

end LetterMachine
