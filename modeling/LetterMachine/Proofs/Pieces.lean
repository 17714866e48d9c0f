import LetterMachine.Source.Pieces
import Mathlib.Data.List.TakeWhile

/-!
# Pieces put together

What is read of a reader depends on the bytes that are left and not on how long its pieces are.  A
run of bytes that is taken piece by piece is the run at the front of all of them, and it fails
exactly if it comes to the place where the stream breaks off; `PieceReader.rest_takeRun` says so for
every reader.  Tokens, single bytes and delimited texts are then read as from the plain stream.
-/

namespace LetterMachine

namespace ByteStream

/-- Takes bytes for as long as they are of the kind to keep, and has to see one that is not, or the
end. -/
def takeRun (keep : UInt8 → Bool) (stream : ByteStream) :
    Except Fault (List UInt8) × ByteStream :=
  let left := stream.bytes.dropWhile keep
  (if left.isEmpty && stream.broken then .error .inputFailed
    else .ok (stream.bytes.takeWhile keep), { stream with bytes := left })

variable {keep : UInt8 → Bool} {run rest : List UInt8} {broken : Bool}

theorem eq_false_of_mem_head?_dropWhile {bytes : List UInt8} :
    ∀ byte ∈ (bytes.dropWhile keep).head?, keep byte = false := by
  intro byte hmem
  have hnot := List.head?_dropWhile_not keep bytes
  rw [Option.mem_def.mp hmem] at hnot
  exact hnot

/-- A run goes on behind bytes that are all of the kind to keep. -/
theorem takeRun_append (hkeep : ∀ byte ∈ run, keep byte = true) :
    takeRun keep ⟨run ++ rest, broken⟩ =
      (takeRun keep ⟨rest, broken⟩).map (·.map (run ++ ·)) id := by
  simp only [takeRun, List.dropWhile_append_of_pos hkeep, List.takeWhile_append_of_pos hkeep]
  split <;> rfl

/-- A run ends where a byte of another kind, or the end, is seen. -/
theorem takeRun_of_stop (hkeep : ∀ byte ∈ run, keep byte = true)
    (hstop : ∀ byte ∈ rest.head?, keep byte = false) (hend : rest = [] → broken = false) :
    takeRun keep ⟨run ++ rest, broken⟩ = (.ok run, ⟨rest, broken⟩) := by
  rw [takeRun_append hkeep]
  cases rest with
  | nil => simp [takeRun, hend rfl, Except.map]
  | cons stop beyond =>
      have hnot : keep stop = false := hstop stop rfl
      simp [takeRun, hnot, Except.map]

/-- A run does not end where the stream breaks off. -/
theorem takeRun_of_broken (hkeep : ∀ byte ∈ run, keep byte = true) :
    takeRun keep ⟨run, true⟩ = (.error .inputFailed, ⟨[], true⟩) := by
  have happend : takeRun keep ⟨run ++ [], true⟩ = _ := takeRun_append hkeep
  rw [List.append_nil] at happend
  exact happend

/-- A run ends within a piece that is not kept as a whole, and at the end. -/
theorem takeRun_within {piece beyond : List UInt8} (hends : ¬(piece ≠ [] ∧ piece.all keep = true))
    (hempty : piece = [] → beyond = [] ∧ broken = false) :
    takeRun keep ⟨piece ++ beyond, broken⟩ =
      (.ok (piece.takeWhile keep), ⟨piece.dropWhile keep ++ beyond, broken⟩) := by
  have hkeep : ∀ byte ∈ piece.takeWhile keep, keep byte = true :=
    fun byte hmem => List.mem_takeWhile_imp hmem
  have hleft : piece.dropWhile keep = [] → beyond = [] ∧ broken = false := by
    intro hleft
    have hall := List.all_eq_true.mpr (List.dropWhile_eq_nil_iff.mp hleft)
    by_contra hnot
    exact hends ⟨mt hempty hnot, hall⟩
  have hstop : ∀ byte ∈ (piece.dropWhile keep ++ beyond).head?, keep byte = false := by
    intro byte hmem
    apply eq_false_of_mem_head?_dropWhile byte
    cases hcons : piece.dropWhile keep with
    | nil => simp [hcons, hleft] at hmem
    | cons stop more =>
        rw [hcons] at hmem
        exact hmem
  have hend : piece.dropWhile keep ++ beyond = [] → broken = false :=
    fun hnil => (hleft (List.append_eq_nil_iff.mp hnil).1).2
  rw [← takeRun_of_stop hkeep hstop hend, ← List.append_assoc, List.takeWhile_append_dropWhile]

theorem readToken_eq (stream : ByteStream) :
    stream.readToken =
      match stream.takeRun isSpace with
      | (.error fault, left) => (.error fault, left)
      | (.ok _, left) =>
        let (token, left) := left.takeRun (!isSpace ·)
        (token.map asToken, left) := by
  obtain ⟨bytes, broken⟩ := stream
  cases htext : bytes.dropWhile isSpace with
  | nil => cases broken <;> simp [readToken, takeRun, htext, Except.map]
  | cons byte text =>
      simp only [readToken, takeRun, htext, List.isEmpty_cons, Bool.false_and, Bool.false_eq_true,
        if_false]
      split <;> rfl

theorem readUntil_eq (delimiter : UInt8) (stream : ByteStream) :
    stream.readUntil delimiter =
      match stream.takeRun (· != delimiter) with
      | (.error fault, left) => (.error fault, left)
      | (.ok before, left) => (.ok before, left.readByte.2) := by
  obtain ⟨bytes, broken⟩ := stream
  cases hleft : bytes.dropWhile (· != delimiter) with
  | nil => cases broken <;> simp [readUntil, takeRun, readByte, hleft]
  | cons byte left => simp [readUntil, takeRun, readByte, hleft]

end ByteStream

namespace PieceReader

variable {ρ : Type} [PieceReader ρ] {reader shown : ρ}

/-- A look fails only where nothing more can be read. -/
theorem rest_of_look_error {fault : Fault} (hlook : look reader = (.error fault, shown)) :
    fault = .inputFailed ∧ rest reader = ⟨[], true⟩ ∧ rest shown = ⟨[], true⟩ := by
  have hshows := shows_look reader
  have hrest := rest_look reader
  rw [hlook] at hshows hrest
  cases hshows with
  | failed hend hbroken =>
      have heq : rest reader = ⟨[], true⟩ := by rw [← hend, ← hbroken]
      exact ⟨rfl, heq, hrest.trans heq⟩

/-- A piece is what comes next, and any part of it can be taken from the front. -/
theorem rest_of_look_ok {piece : List UInt8} (hlook : look reader = (.ok piece, shown)) :
    ∃ beyond broken, rest reader = ⟨piece ++ beyond, broken⟩ ∧
      (piece = [] → beyond = [] ∧ broken = false) ∧
      ∀ run left, run ++ left = piece →
        rest (take run.length shown) = ⟨left ++ beyond, broken⟩ := by
  have hshows := shows_look reader
  have hpiece : (look reader).1 = .ok piece := by rw [hlook]
  have htake : ∀ count ≤ piece.length,
      rest (take count (look reader).2) = (rest reader).drop count :=
    fun _ hcount => rest_take hpiece hcount
  obtain ⟨beyond, hbeyond⟩ := isPrefix_of_look hpiece
  have hrest : rest reader = ⟨piece ++ beyond, (rest reader).broken⟩ := by rw [hbeyond]
  rw [hlook] at hshows htake
  refine ⟨beyond, (rest reader).broken, hrest, ?_, ?_⟩
  · rintro rfl
    cases hshows with
    | piece hnonempty => exact absurd rfl hnonempty
    | finished hend hbroken => exact ⟨by simpa [hend] using hbeyond, hbroken⟩
  · rintro run left rfl
    rw [htake _ (by simp), hrest]
    simp [ByteStream.drop]

theorem rest_takeRun (keep : UInt8 → Bool) (reader : ρ) :
    (takeRun keep reader).map id rest = (rest reader).takeRun keep := by
  fun_induction takeRun keep reader with
  | case1 reader fault shown hlook =>
      obtain ⟨rfl, hrest, hshown⟩ := rest_of_look_error hlook
      rw [hrest, Prod.map_apply, hshown]
      rfl
  | case2 reader piece shown hlook hgoes more left hrun ih =>
      obtain ⟨beyond, broken, hrest, -, htake⟩ := rest_of_look_ok hlook
      have hkeep := List.all_eq_true.mp hgoes.2
      rw [htake piece [] (List.append_nil piece), hrun, List.nil_append] at ih
      rw [hrest, ByteStream.takeRun_append hkeep, ← ih]
      rfl
  | case3 reader piece shown hlook hgoes run =>
      obtain ⟨beyond, broken, hrest, hempty, htake⟩ := rest_of_look_ok hlook
      have hsplit : run ++ piece.dropWhile keep = piece := List.takeWhile_append_dropWhile
      rw [hrest, ByteStream.takeRun_within hgoes hempty, Prod.map_apply, htake run _ hsplit]
      rfl

theorem rest_readToken (reader : ρ) :
    (readToken reader).map id rest = (rest reader).readToken := by
  have hspaces := rest_takeRun isSpace reader
  rcases hrun : takeRun isSpace reader with ⟨result, left⟩
  rw [hrun] at hspaces
  rw [ByteStream.readToken_eq, ← hspaces, readToken, hrun]
  cases result with
  | error fault => rfl
  | ok spaces =>
      have htoken := rest_takeRun (!isSpace ·) left
      exact congrArg (Prod.map (Except.map asToken) id) htoken

theorem rest_readByte (reader : ρ) :
    (readByte reader).map id rest = (rest reader).readByte := by
  rcases hlook : look reader with ⟨result, shown⟩
  rw [readByte, hlook]
  cases result with
  | error fault =>
      obtain ⟨rfl, hrest, hshown⟩ := rest_of_look_error hlook
      rw [hrest, Prod.map_apply, hshown]
      rfl
  | ok piece =>
      obtain ⟨beyond, broken, hrest, hempty, htake⟩ := rest_of_look_ok hlook
      cases piece with
      | nil =>
          obtain ⟨rfl, rfl⟩ := hempty rfl
          have hshown := rest_look reader
          rw [hlook] at hshown
          rw [Prod.map_apply, hshown, hrest]
          rfl
      | cons byte more =>
          have hleft : rest (take 1 shown) = ⟨more ++ beyond, broken⟩ := htake [byte] more rfl
          rw [hrest, Prod.map_apply, hleft]
          rfl

theorem rest_readUntil (delimiter : UInt8) (reader : ρ) :
    (readUntil delimiter reader).map id rest = (rest reader).readUntil delimiter := by
  have hbefore := rest_takeRun (· != delimiter) reader
  rcases hrun : takeRun (· != delimiter) reader with ⟨result, left⟩
  rw [hrun] at hbefore
  rw [ByteStream.readUntil_eq, ← hbefore, readUntil, hrun]
  cases result with
  | error fault => rfl
  | ok before =>
      have hbyte : rest (readByte left).2 = (rest left).readByte.2 :=
        congrArg Prod.snd (rest_readByte left)
      exact Prod.ext rfl hbyte

end PieceReader

end LetterMachine
