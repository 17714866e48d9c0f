import LetterMachine.CommandLine.Session
import LetterMachine.Proofs.DamagedText
import LetterMachine.Proofs.SourceLines

/-!
# Programs in files

All bytes of a file are decoded before the first line of the text is cut off.  A line feed is a
character by itself, and a replacement never takes one with it: it ends a character that is
unfinished before it, and what is behind it begins anew.  So it makes no difference whether a file
is decoded and then cut, or cut and then decoded, and the bytes behind the first line feed are never
looked at.
-/

namespace LetterMachine

namespace Utf8

/-- Bytes without the carriage return at their end, if there is one. -/
def dropReturn (bytes : List UInt8) : List UInt8 :=
  if bytes.getLast? = some 0x0D then bytes.dropLast else bytes

theorem isShort_return : IsShort '\r' := by
  decide

theorem not_mem_decode_of_lineFeed {line : List UInt8} (hline : 0x0A ∉ line) :
    '\n' ∉ decode line :=
  fun hmem => hline ((mem_decode_iff (by decide) line).mp hmem)

/-- The last character is a carriage return only if the last byte is one: behind any other one there
are bytes, and they give characters. -/
theorem getLast?_decode_ne {bytes : List UInt8} (hlast : bytes.getLast? ≠ some 0x0D) :
    (decode bytes).getLast? ≠ some '\r' := by
  by_cases hmem : 0x0D ∈ bytes
  · obtain ⟨behind, before, hbytes, hbehind⟩ :=
      List.eq_append_cons_of_mem (List.mem_reverse.mpr hmem)
    have hsplit : bytes = before.reverse ++ 0x0D :: behind.reverse := by
      rw [← bytes.reverse_reverse, hbytes]
      simp
    rw [hsplit, decode_append_cons_of_ascii (by decide)]
    have hne : behind.reverse ≠ [] := by
      rintro hnil
      rw [hsplit, hnil] at hlast
      exact hlast List.getLast?_concat
    have hdecoded : decode behind.reverse ≠ [] := decodeFrom_ne_nil (.inr hne)
    have hnot : '\r' ∉ decode behind.reverse :=
      fun hfound => hbehind (List.mem_reverse.mp ((mem_decode_iff isShort_return _).mp hfound))
    rw [List.getLast?_append_of_ne_nil _ (List.cons_ne_nil _ _),
      List.getLast?_cons_of_ne_nil hdecoded]
    exact fun heq => hnot (List.mem_of_getLast? heq)
  · intro heq
    exact hmem ((mem_decode_iff isShort_return bytes).mp (List.mem_of_getLast? heq))

theorem dropReturn_decode (bytes : List UInt8) :
    Program.dropReturn (decode bytes) = decode (dropReturn bytes) := by
  by_cases hlast : bytes.getLast? = some 0x0D
  · obtain ⟨front, rfl⟩ := List.getLast?_eq_some_iff.mp hlast
    rw [dropReturn, if_pos hlast, List.dropLast_concat, decode_append_cons_of_ascii (by decide)]
    exact Program.dropReturn_append_return (decode front)
  · rw [dropReturn, if_neg hlast]
    exact Program.dropReturn_of_getLast? (getLast?_decode_ne hlast)

/-- Decoding and cutting off the first line can be exchanged. -/
theorem line_decode_append {line : List UInt8} (hline : 0x0A ∉ line) (rest : List UInt8) :
    Program.line (decode (line ++ 0x0A :: rest)) = decode (dropReturn line) := by
  rw [decode_append_cons_of_ascii (by decide), ← dropReturn_decode]
  exact Program.line_append (not_mem_decode_of_lineFeed hline) (decode rest)

end Utf8

namespace CommandLine.World

/-- **Nothing behind the first line of a file is looked at.**  The program in a file is that of the
text of its first line, whatever the bytes are, with one instruction without effect behind it. -/
theorem load_of_first_line {world : World} {path : String} {line rest : List UInt8}
    (hline : 0x0A ∉ line) (hread : world.read path = .ok (line ++ 0x0A :: rest)) :
    (∃ text, Utf8.Denotes (Utf8.dropReturn line) text ∧
      world.load path = .ok ⟨(text.map Instruction.ofChar ++ [Instruction.nop '\n']).toArray⟩) ∧
      ∀ (other : World) (name : String), other.read name = .ok (line ++ [0x0A]) →
        other.load name = world.load path := by
  have hload : ∀ {found : World} {place : String} {behind : List UInt8},
      found.read place = .ok (line ++ 0x0A :: behind) →
        found.load place = .ok (.ofChars (Utf8.decode (Utf8.dropReturn line) ++ ['\n'])) := by
    intro found place behind hfound
    rw [load, hfound]
    simp only
    rw [Program.ofSource_eq, Utf8.line_decode_append hline]
  refine ⟨⟨_, Utf8.denotes_iff.mpr rfl, ?_⟩, ?_⟩
  · rw [hload hread, Program.ofChars, List.map_append]
    rfl
  · intro other name hother
    rw [hload hother, hload hread]

/-- The first line ends in the middle of a character and with a carriage return, and the second one
begins as if that character went on. -/
theorem load_of_first_line_of_unfinished :
    let line : List UInt8 := [0x31, 0xE2, 0x82, 0x0D]
    let rest : List UInt8 := [0xAC, 0x80, 0xFF, 0x0A, 0x32]
    let world : World := { read := fun _ => .ok (line ++ 0x0A :: rest), stdin := ⟨[], false⟩ }
    let other : World := { read := fun _ => .ok (line ++ [0x0A]), stdin := ⟨[], false⟩ }
    other.load "program" = world.load "program" ∧
      world.load "program" = .ok ⟨#[.digit 1, .nop Utf8.replacement, .nop '\n']⟩ := by
  intro line rest world other
  have hline : 0x0A ∉ line := by decide
  have hread : world.read "program" = .ok (line ++ 0x0A :: rest) := rfl
  obtain ⟨⟨text, hdenotes, hload⟩, hother⟩ := load_of_first_line hline hread
  have htext : text = ['1', Utf8.replacement] :=
    (Utf8.denotes_iff.mp hdenotes).trans (by decide)
  rw [htext] at hload
  exact ⟨hother other "program" rfl, hload⟩

end CommandLine.World

end LetterMachine
