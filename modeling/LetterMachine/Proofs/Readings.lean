import LetterMachine.Proofs.Pieces
import LetterMachine.Source.Chunked

/-!
# Readings of a list of bytes

What tokens, single bytes and delimited texts are, is said here of a plain list: `Reads` gives for
every reading its answer, the bytes that belong to it, and how far it has to look.  A tape is a list
of which only a first part can be looked at.  The main statement is that any reader of a tape, asked
for any number of readings, gives the results of the list and leaves what the list leaves.
-/

namespace LetterMachine

namespace ByteStream

variable {rest : List UInt8} {broken : Bool}

/-- Every list begins with a run, and what comes after it stops the run. -/
theorem exists_run (keep : UInt8 → Bool) (bytes : List UInt8) :
    ∃ run rest, bytes = run ++ rest ∧ (∀ byte ∈ run, keep byte = true) ∧
      ∀ byte ∈ rest.head?, keep byte = false :=
  ⟨bytes.takeWhile keep, bytes.dropWhile keep, List.takeWhile_append_dropWhile.symm,
    fun _ hmem => List.mem_takeWhile_imp hmem, eq_false_of_mem_head?_dropWhile⟩

theorem not_isSpace {token : List UInt8} (htoken : ∀ byte ∈ token, isSpace byte = false) :
    ∀ byte ∈ token, (!isSpace byte) = true := by
  intro byte hmem
  rw [htoken byte hmem]
  rfl

theorem asToken_of_ne_nil {token : List UInt8} (hnonempty : token ≠ []) :
    asToken token = some token := by
  simp [asToken, hnonempty]

/-- A token is read as soon as the white space after it, or the end, is seen. -/
theorem readToken_append {spaces token : List UInt8}
    (hspaces : ∀ byte ∈ spaces, isSpace byte = true)
    (htoken : ∀ byte ∈ token, isSpace byte = false)
    (hstop : ∀ byte ∈ rest.head?, isSpace byte = true) (hempty : token = [] → rest = [])
    (hend : rest = [] → broken = false) :
    readToken ⟨spaces ++ token ++ rest, broken⟩ = (.ok (asToken token), ⟨rest, broken⟩) := by
  have hfirst : ∀ byte ∈ (token ++ rest).head?, isSpace byte = false := by
    cases token with
    | nil => simp [hempty]
    | cons first more =>
        intro byte hmem
        obtain rfl := Option.some.inj hmem
        exact htoken first List.mem_cons_self
  have hstop' : ∀ byte ∈ rest.head?, (!isSpace byte) = false := by
    intro byte hmem
    rw [hstop byte hmem]
    rfl
  have hend' : token ++ rest = [] → broken = false :=
    fun hnil => hend (List.append_eq_nil_iff.mp hnil).2
  rw [readToken_eq, List.append_assoc, takeRun_of_stop hspaces hfirst hend']
  simp only [takeRun_of_stop (not_isSpace htoken) hstop' hend]
  rfl

/-- A token is not read where the stream breaks off. -/
theorem readToken_of_broken {spaces token : List UInt8}
    (hspaces : ∀ byte ∈ spaces, isSpace byte = true)
    (htoken : ∀ byte ∈ token, isSpace byte = false) :
    readToken ⟨spaces ++ token, true⟩ = (.error .inputFailed, ⟨[], true⟩) := by
  cases token with
  | nil => rw [readToken_eq, List.append_nil, takeRun_of_broken hspaces]
  | cons first more =>
      have hfirst : ∀ byte ∈ (first :: more).head?, isSpace byte = false := by
        intro byte hmem
        exact htoken byte (List.mem_of_head? hmem)
      rw [readToken_eq, takeRun_of_stop hspaces hfirst (by simp)]
      simp only [takeRun_of_broken (not_isSpace htoken)]
      rfl

theorem bne_of_not_mem {delimiter : UInt8} {before : List UInt8} (hbefore : delimiter ∉ before) :
    ∀ byte ∈ before, (byte != delimiter) = true :=
  fun _ hmem => bne_iff_ne.mpr (ne_of_mem_of_not_mem hmem hbefore)

/-- A text is read as soon as the delimiter after it, or the end, is seen. -/
theorem readUntil_append {delimiter : UInt8} {before : List UInt8} (hbefore : delimiter ∉ before)
    (hstop : ∀ byte ∈ rest.head?, byte = delimiter) (hend : rest = [] → broken = false) :
    readUntil delimiter ⟨before ++ rest, broken⟩ = (.ok before, ⟨rest.drop 1, broken⟩) := by
  have hstop' : ∀ byte ∈ rest.head?, (byte != delimiter) = false := by
    intro byte hmem
    rw [hstop byte hmem, bne_self_eq_false]
  rw [readUntil_eq, takeRun_of_stop (bne_of_not_mem hbefore) hstop' hend]
  cases rest <;> rfl

/-- A text is not read where the stream breaks off before a delimiter. -/
theorem readUntil_of_broken {delimiter : UInt8} {before : List UInt8}
    (hbefore : delimiter ∉ before) :
    readUntil delimiter ⟨before, true⟩ = (.error .inputFailed, ⟨[], true⟩) := by
  rw [readUntil_eq, takeRun_of_broken (bne_of_not_mem hbefore)]

end ByteStream

/-- What can be asked of a source. -/
inductive Reading where
  | token
  | byte
  | text (delimiter : UInt8)
  deriving DecidableEq, Repr

/-- What a source may answer. -/
inductive Answer where
  | token (token? : Option (List UInt8))
  | byte (byte? : Option UInt8)
  | text (bytes : List UInt8)
  deriving DecidableEq, Repr

namespace Reading

variable {ι : Type} [Source ι]

def ask (reading : Reading) (source : ι) : Except Fault Answer × ι :=
  match reading with
  | .token => (Source.readToken source).map (·.map .token) id
  | .byte => (Source.readByte source).map (·.map .byte) id
  | .text delimiter => (Source.readUntil delimiter source).map (·.map .text) id

/-- Asks for one reading after the other, whether they fail or not. -/
def askAll : List Reading → ι → List (Except Fault Answer) × ι
  | [], source => ([], source)
  | reading :: readings, source =>
    let (result, after) := reading.ask source
    let (results, last) := askAll readings after
    (result :: results, last)

end Reading

/-- What a reading comes to on a list of bytes: its answer, the bytes that it takes, those that it
leaves, and the number of places that it has to look at.  The end of the list is such a place. -/
inductive Reads : Reading → Answer → (taken rest : List UInt8) → (looked : Nat) → Prop where
  | token {spaces token rest : List UInt8} (hspaces : ∀ byte ∈ spaces, isSpace byte = true)
      (hnonempty : token ≠ []) (htoken : ∀ byte ∈ token, isSpace byte = false)
      (hrest : ∀ byte ∈ rest.head?, isSpace byte = true) :
      Reads .token (.token (some token)) (spaces ++ token) rest ((spaces ++ token).length + 1)
  | noToken {spaces : List UInt8} (hspaces : ∀ byte ∈ spaces, isSpace byte = true) :
      Reads .token (.token none) spaces [] (spaces.length + 1)
  | byte {byte : UInt8} {rest : List UInt8} : Reads .byte (.byte (some byte)) [byte] rest 1
  | noByte : Reads .byte (.byte none) [] [] 1
  | text {delimiter : UInt8} {before rest : List UInt8} (hbefore : delimiter ∉ before) :
      Reads (.text delimiter) (.text before) (before ++ [delimiter]) rest (before.length + 1)
  | lastText {delimiter : UInt8} {before : List UInt8} (hbefore : delimiter ∉ before) :
      Reads (.text delimiter) (.text before) before [] (before.length + 1)

/-- A list of bytes of which those from a limit on cannot be looked at, if there is a limit. -/
structure Tape where
  bytes : List UInt8
  limit? : Option Nat

namespace Tape

/-- What can be read of a tape. -/
def stream (tape : Tape) : ByteStream :=
  match tape.limit? with
  | none => ⟨tape.bytes, false⟩
  | some limit => ⟨tape.bytes.take limit, decide (limit ≤ tape.bytes.length)⟩

def drop (count : Nat) (tape : Tape) : Tape :=
  ⟨tape.bytes.drop count, tape.limit?.map (· - count)⟩

/-- The result of a reading of a tape, and the bytes that are gone after it.  A reading fails if it
has to look at a place at the limit or beyond, and everything before the limit is then lost. -/
inductive Gives (tape : Tape) (reading : Reading) :
    Except Fault Answer → (gone : List UInt8) → Prop where
  | answer {answer : Answer} {taken rest : List UInt8} {looked : Nat}
      (hreads : Reads reading answer taken rest looked) (hbytes : tape.bytes = taken ++ rest)
      (hlimit : ∀ limit ∈ tape.limit?, looked ≤ limit) : Gives tape reading (.ok answer) taken
  | failure {answer : Answer} {taken rest : List UInt8} {looked limit : Nat}
      (hreads : Reads reading answer taken rest looked) (hbytes : tape.bytes = taken ++ rest)
      (hlimit : tape.limit? = some limit) (hlooked : limit < looked) :
      Gives tape reading (.error .inputFailed) (tape.bytes.take limit)

/-- The results of readings one after the other, and all bytes that are gone after them. -/
inductive GivesAll : Tape → List Reading → List (Except Fault Answer) → (gone : List UInt8) → Prop
  where
  | nil (tape : Tape) : GivesAll tape [] [] []
  | cons {tape : Tape} {reading : Reading} {readings : List Reading}
      {result : Except Fault Answer} {results : List (Except Fault Answer)}
      {gone more : List UInt8} (hgives : tape.Gives reading result gone)
      (hrest : (tape.drop gone.length).GivesAll readings results more) :
      GivesAll tape (reading :: readings) (result :: results) (gone ++ more)

end Tape

namespace Reads

variable {reading : Reading} {answer : Answer} {taken rest : List UInt8} {looked : Nat}

theorem length_le_looked (hreads : Reads reading answer taken rest looked) :
    taken.length ≤ looked := by
  cases hreads <;> simp

theorem looked_pos (hreads : Reads reading answer taken rest looked) : 0 < looked := by
  cases hreads <;> simp

/-- At most the end is looked at beyond the bytes of the list. -/
theorem looked_le (hreads : Reads reading answer taken rest looked) :
    looked ≤ (taken ++ rest).length + 1 := by
  cases hreads <;> simp

/-- The answer of a reading is known as soon as it has looked at all that it has to look at. -/
theorem ask_of_seen (hreads : Reads reading answer taken rest looked) {seen : List UInt8}
    {broken : Bool} (hseen : seen <+: rest)
    (hlooked : looked ≤ (taken ++ seen).length ∨ seen = rest ∧ broken = false) :
    reading.ask (ByteStream.mk (taken ++ seen) broken) = (.ok answer, ⟨seen, broken⟩) := by
  have hend : taken.length < looked → seen = [] → broken = false := by
    rintro hlt rfl
    cases hlooked with
    | inl hle => simp at hle; omega
    | inr hrest => exact hrest.2
  have hhead : ∀ byte ∈ seen.head?, byte ∈ rest.head? := by
    intro byte hmem
    obtain ⟨beyond, rfl⟩ := hseen
    cases seen with
    | nil => cases hmem
    | cons first more => exact hmem
  cases hreads with
  | @token spaces token _ hspaces hnonempty htoken hrest =>
      have hstop : ∀ byte ∈ seen.head?, isSpace byte = true :=
        fun byte hmem => hrest byte (hhead byte hmem)
      have hread := ByteStream.readToken_append hspaces htoken hstop
        (fun hnil => absurd hnil hnonempty) (hend (Nat.lt_succ_self _))
      rw [ByteStream.asToken_of_ne_nil hnonempty] at hread
      exact congrArg (Prod.map (Except.map Answer.token) id) hread
  | noToken hspaces =>
      obtain rfl := List.prefix_nil.mp hseen
      have hread : ByteStream.readToken ⟨taken ++ [] ++ [], broken⟩ = _ :=
        ByteStream.readToken_append hspaces (by simp) (by simp) (fun _ => rfl)
          (hend (Nat.lt_succ_self _))
      rw [List.append_nil] at hread
      exact congrArg (Prod.map (Except.map Answer.token) id) hread
  | byte => rfl
  | noByte =>
      obtain rfl := List.prefix_nil.mp hseen
      rw [hend Nat.zero_lt_one rfl]
      rfl
  | @text delimiter before _ hbefore =>
      have hread : ByteStream.readUntil delimiter ⟨before ++ delimiter :: seen, broken⟩ = _ :=
        ByteStream.readUntil_append hbefore (by simp) (by simp)
      rw [List.append_cons] at hread
      exact congrArg (Prod.map (Except.map Answer.text) id) hread
  | @lastText delimiter _ hbefore =>
      obtain rfl := List.prefix_nil.mp hseen
      have hread : ByteStream.readUntil delimiter ⟨taken ++ [], broken⟩ = _ :=
        ByteStream.readUntil_append hbefore (by simp) (hend (Nat.lt_succ_self _))
      exact congrArg (Prod.map (Except.map Answer.text) id) hread

/-- A reading fails that has to look beyond what can be looked at. -/
theorem ask_of_lt (hreads : Reads reading answer taken rest looked) {limit : Nat}
    (hlimit : limit < looked) :
    reading.ask (ByteStream.mk ((taken ++ rest).take limit) true) =
      (.error .inputFailed, ⟨[], true⟩) := by
  cases hreads with
  | @token spaces token _ hspaces hnonempty htoken hrest =>
      have hread : ByteStream.readToken
          ⟨spaces.take limit ++ token.take (limit - spaces.length), true⟩ = _ :=
        ByteStream.readToken_of_broken
          (fun byte hmem => hspaces byte (List.mem_of_mem_take hmem))
          (fun byte hmem => htoken byte (List.mem_of_mem_take hmem))
      rw [← List.take_append, ← List.take_append_of_le_length (Nat.le_of_lt_succ hlimit)] at hread
      exact congrArg (Prod.map (Except.map Answer.token) id) hread
  | noToken hspaces =>
      have hread : ByteStream.readToken ⟨taken.take limit ++ [], true⟩ = _ :=
        ByteStream.readToken_of_broken
          (fun byte hmem => hspaces byte (List.mem_of_mem_take hmem)) (by simp)
      rw [List.append_nil] at hread ⊢
      exact congrArg (Prod.map (Except.map Answer.token) id) hread
  | byte | noByte =>
      obtain rfl := Nat.lt_one_iff.mp hlimit
      rfl
  | @text delimiter before _ hbefore =>
      have hread : ByteStream.readUntil delimiter ⟨before.take limit, true⟩ = _ :=
        ByteStream.readUntil_of_broken fun hmem => hbefore (List.mem_of_mem_take hmem)
      rw [List.append_assoc, List.take_append_of_le_length (Nat.le_of_lt_succ hlimit)]
      exact congrArg (Prod.map (Except.map Answer.text) id) hread
  | @lastText delimiter _ hbefore =>
      have hread : ByteStream.readUntil delimiter ⟨taken.take limit, true⟩ = _ :=
        ByteStream.readUntil_of_broken fun hmem => hbefore (List.mem_of_mem_take hmem)
      rw [List.append_nil]
      exact congrArg (Prod.map (Except.map Answer.text) id) hread

end Reads

/-- Every reading comes to something on every list of bytes. -/
theorem exists_reads (reading : Reading) (bytes : List UInt8) :
    ∃ answer taken rest looked,
      Reads reading answer taken rest looked ∧ bytes = taken ++ rest := by
  cases reading with
  | token =>
      obtain ⟨spaces, text, rfl, hspaces, htext⟩ := ByteStream.exists_run isSpace bytes
      obtain ⟨token, rest, rfl, htoken, hrest⟩ := ByteStream.exists_run (!isSpace ·) text
      simp only [Bool.not_eq_true', Bool.not_eq_false'] at htoken hrest
      by_cases hnonempty : token = []
      · subst hnonempty
        -- Without a token, the white space can only be stopped by the end.
        cases rest with
        | nil => exact ⟨_, _, _, _, .noToken hspaces, rfl⟩
        | cons stop more =>
            have hspace := hrest stop rfl
            rw [htext stop rfl] at hspace
            cases hspace
      · exact ⟨_, _, _, _, .token hspaces hnonempty htoken hrest, (List.append_assoc ..).symm⟩
  | byte =>
      cases bytes with
      | nil => exact ⟨_, _, _, _, .noByte, rfl⟩
      | cons byte rest => exact ⟨_, _, _, _, .byte, rfl⟩
  | text delimiter =>
      by_cases hmem : delimiter ∈ bytes
      · obtain ⟨before, rest, rfl, hbefore⟩ := List.eq_append_cons_of_mem hmem
        exact ⟨_, _, _, _, .text hbefore, (List.append_cons ..)⟩
      · exact ⟨_, _, _, _, .lastText hmem, (List.append_nil _).symm⟩

namespace Tape

variable {tape : Tape} {reading : Reading} {result : Except Fault Answer} {gone : List UInt8}

theorem stream_of_limit {limit : Nat} (hlimit : tape.limit? = some limit)
    (hle : limit ≤ tape.bytes.length) : tape.stream = ⟨tape.bytes.take limit, true⟩ := by
  simp [stream, hlimit, hle]

/-- A tape is read to its end, or it breaks off at the limit. -/
theorem stream_whole_or_cut (tape : Tape) :
    tape.stream = ⟨tape.bytes, false⟩ ∨ ∃ limit ≤ tape.bytes.length,
      tape.limit? = some limit ∧ tape.stream = ⟨tape.bytes.take limit, true⟩ := by
  obtain ⟨bytes, limit?⟩ := tape
  cases limit? with
  | none => exact Or.inl rfl
  | some limit =>
      by_cases hle : limit ≤ bytes.length
      · exact Or.inr ⟨limit, hle, rfl, stream_of_limit rfl hle⟩
      · have htake := List.take_of_length_le (Nat.le_of_not_le hle)
        exact Or.inl (by simp [stream, hle, htake])

theorem isPrefix_stream (tape : Tape) : tape.stream.bytes <+: tape.bytes := by
  unfold stream
  split
  · exact List.prefix_rfl
  · exact List.take_prefix ..

/-- Bytes before the limit are the first to be read. -/
theorem stream_append {taken rest : List UInt8} (hbytes : tape.bytes = taken ++ rest)
    (hlimit : ∀ limit ∈ tape.limit?, taken.length ≤ limit) :
    tape.stream = ⟨taken ++ (tape.drop taken.length).stream.bytes,
      (tape.drop taken.length).stream.broken⟩ := by
  obtain ⟨bytes, limit?⟩ := tape
  obtain rfl : bytes = taken ++ rest := hbytes
  cases limit? with
  | none => simp [stream, drop]
  | some limit =>
      have hle : taken.length ≤ limit := hlimit limit rfl
      simp only [stream, drop, Option.map_some, List.drop_left, List.take_append,
        List.take_of_length_le hle, List.length_append, ByteStream.mk.injEq, true_and,
        decide_eq_decide]
      omega

/-- After a failure there is nothing left before the limit. -/
theorem drop_take_limit {limit : Nat} (hlimit : tape.limit? = some limit)
    (hle : limit ≤ tape.bytes.length) :
    (tape.drop (tape.bytes.take limit).length).stream = ⟨[], true⟩ := by
  rw [List.length_take_of_le hle, drop, hlimit]
  simp [stream]

/-- What a tape gives is what is read of it. -/
theorem Gives.ask_eq (hgives : tape.Gives reading result gone) :
    reading.ask tape.stream = (result, (tape.drop gone.length).stream) := by
  cases hgives with
  | @answer answer taken rest looked hreads hbytes hlimit =>
      have hlength := hreads.length_le_looked
      have hrest : (tape.drop gone.length).bytes = rest := by simp [drop, hbytes]
      have hseen := (tape.drop gone.length).isPrefix_stream
      rw [stream_append hbytes fun limit hmem => hlength.trans (hlimit limit hmem)]
      rw [hrest] at hseen
      apply hreads.ask_of_seen hseen
      rcases (tape.drop gone.length).stream_whole_or_cut with heq | ⟨left, hle, hleft, heq⟩
      · rw [heq]
        exact Or.inr ⟨hrest, rfl⟩
      · obtain ⟨limit, hmem, rfl⟩ := Option.map_eq_some_iff.mp hleft
        have hlooked := hlimit limit hmem
        rw [heq, List.length_append, List.length_take_of_le hle]
        exact Or.inl (by omega)
  | @failure answer taken rest looked limit hreads hbytes hlimit hlooked =>
      have hle : limit ≤ tape.bytes.length := by
        have hlast := hreads.looked_le
        rw [← hbytes] at hlast
        omega
      have hfails := hreads.ask_of_lt hlooked
      rw [← hbytes, ← stream_of_limit hlimit hle] at hfails
      rw [hfails, drop_take_limit hlimit hle]

/-- The bytes that are gone, followed by those that are left to be read, are those that there were
before. -/
theorem Gives.append_eq (hgives : tape.Gives reading result gone) :
    gone ++ (tape.drop gone.length).stream.bytes = tape.stream.bytes := by
  cases hgives with
  | answer hreads hbytes hlimit =>
      have hlength := hreads.length_le_looked
      rw [stream_append hbytes fun limit hmem => hlength.trans (hlimit limit hmem)]
  | @failure answer taken rest looked limit hreads hbytes hlimit hlooked =>
      have hle : limit ≤ tape.bytes.length := by
        have hlast := hreads.looked_le
        rw [← hbytes] at hlast
        omega
      rw [drop_take_limit hlimit hle, stream_of_limit hlimit hle, List.append_nil]

theorem exists_gives (tape : Tape) (reading : Reading) :
    ∃ result gone, tape.Gives reading result gone := by
  obtain ⟨answer, taken, rest, looked, hreads, hbytes⟩ := exists_reads reading tape.bytes
  cases hlimit : tape.limit? with
  | none => exact ⟨_, _, .answer hreads hbytes (by simp [hlimit])⟩
  | some limit =>
      by_cases hlooked : looked ≤ limit
      · exact ⟨_, _, .answer hreads hbytes (by simpa [hlimit] using hlooked)⟩
      · exact ⟨_, _, .failure hreads hbytes hlimit (Nat.lt_of_not_le hlooked)⟩

/-- A reading fails exactly if it has to look at a place at the limit or beyond. -/
theorem ask_eq_error_iff {answer : Answer} {taken rest : List UInt8} {looked : Nat}
    (hreads : Reads reading answer taken rest looked) (hbytes : tape.bytes = taken ++ rest) :
    (reading.ask tape.stream).1 = .error .inputFailed ↔ ∃ limit ∈ tape.limit?, limit < looked := by
  constructor
  · intro hfails
    by_contra hlimit
    have hgives := Gives.answer hreads hbytes fun limit hmem =>
      Nat.le_of_not_lt fun hlt => hlimit ⟨limit, hmem, hlt⟩
    rw [hgives.ask_eq] at hfails
    cases hfails
  · intro hlimit
    obtain ⟨limit, hmem, hlt⟩ := hlimit
    rw [(Gives.failure hreads hbytes hmem hlt).ask_eq]

variable {readings : List Reading} {results : List (Except Fault Answer)}

theorem drop_drop (first second : Nat) (tape : Tape) :
    (tape.drop first).drop second = tape.drop (first + second) := by
  simp [drop, Option.map_map, Function.comp_def, Nat.sub_sub]

theorem GivesAll.askAll_eq (hgives : tape.GivesAll readings results gone) :
    Reading.askAll readings tape.stream = (results, (tape.drop gone.length).stream) := by
  induction hgives with
  | nil tape => simp [Reading.askAll, drop]
  | cons hfirst hrest ih =>
      rw [Reading.askAll, hfirst.ask_eq]
      simp only [ih, drop_drop, List.length_append]

theorem GivesAll.append_eq (hgives : tape.GivesAll readings results gone) :
    gone ++ (tape.drop gone.length).stream.bytes = tape.stream.bytes := by
  induction hgives with
  | nil tape => simp [drop]
  | cons hfirst hrest ih =>
      rw [List.append_assoc, List.length_append, ← drop_drop, ih, hfirst.append_eq]

theorem exists_givesAll (readings : List Reading) (tape : Tape) :
    ∃ results gone, tape.GivesAll readings results gone := by
  induction readings generalizing tape with
  | nil => exact ⟨_, _, .nil tape⟩
  | cons reading readings ih =>
      obtain ⟨result, gone, hgives⟩ := tape.exists_gives reading
      obtain ⟨results, more, hrest⟩ := ih (tape.drop gone.length)
      exact ⟨_, _, .cons hgives hrest⟩

end Tape

namespace PieceReader

variable {ρ : Type} [PieceReader ρ]

theorem rest_ask (reading : Reading) (reader : ρ) :
    (reading.ask reader).map id rest = reading.ask (rest reader) := by
  cases reading with
  | token => exact congrArg (Prod.map (Except.map Answer.token) id) (rest_readToken reader)
  | byte => exact congrArg (Prod.map (Except.map Answer.byte) id) (rest_readByte reader)
  | text delimiter =>
      exact congrArg (Prod.map (Except.map Answer.text) id) (rest_readUntil delimiter reader)

theorem rest_askAll (readings : List Reading) (reader : ρ) :
    (Reading.askAll readings reader).map id rest = Reading.askAll readings (rest reader) := by
  induction readings generalizing reader with
  | nil => rfl
  | cons reading readings ih =>
      have hresult : (reading.ask reader).1 = (reading.ask (rest reader)).1 :=
        congrArg Prod.fst (rest_ask reading reader)
      have hafter : rest (reading.ask reader).2 = (reading.ask (rest reader)).2 :=
        congrArg Prod.snd (rest_ask reading reader)
      have hmore := ih (reading.ask reader).2
      rw [hafter] at hmore
      simp only [Reading.askAll]
      rw [← hresult, ← hmore]
      rfl

/-- **Pieces do not show in what is read.**  Readings of a reader have the results that they have on
the list of its bytes, and no others.  What is left is what the list leaves, and nothing of the
bytes is lost, doubled or moved.  A reading asked for after any others fails exactly if it has to
look at a place at the limit or beyond.  Another reader of the same bytes has the same results,
however it hands them out. -/
theorem askAll_gives_all (tape : Tape) (reader : ρ) (hrest : rest reader = tape.stream)
    (readings : List Reading) :
    ∃ gone, tape.GivesAll readings (Reading.askAll readings reader).1 gone ∧
      (∀ results lost, tape.GivesAll readings results lost →
        results = (Reading.askAll readings reader).1 ∧ lost = gone) ∧
      rest (Reading.askAll readings reader).2 = (tape.drop gone.length).stream ∧
      gone ++ (rest (Reading.askAll readings reader).2).bytes = (rest reader).bytes ∧
      (∀ {reading answer taken left looked}, Reads reading answer taken left looked →
        tape.bytes = gone ++ (taken ++ left) →
        ((reading.ask (Reading.askAll readings reader).2).1 = .error .inputFailed ↔
          ∃ limit ∈ tape.limit?, limit < gone.length + looked)) ∧
      ∀ {σ : Type} [PieceReader σ] (other : σ), rest other = tape.stream →
        (Reading.askAll readings other).1 = (Reading.askAll readings reader).1 ∧
          rest (Reading.askAll readings other).2 = rest (Reading.askAll readings reader).2 := by
  obtain ⟨results, gone, hgives⟩ := tape.exists_givesAll readings
  have hreads : ∀ {σ : Type} [PieceReader σ] (other : σ), rest other = tape.stream →
      (Reading.askAll readings other).1 = results ∧
        rest (Reading.askAll readings other).2 = (tape.drop gone.length).stream := by
    intro σ _ other hother
    have heq : (Reading.askAll readings other).map id rest =
        (results, (tape.drop gone.length).stream) := by
      rw [rest_askAll, hother, hgives.askAll_eq]
    exact ⟨congrArg Prod.fst heq, congrArg Prod.snd heq⟩
  obtain ⟨hresults, hleft⟩ := hreads reader hrest
  refine ⟨gone, ?_, ?_, hleft, ?_, ?_, ?_⟩
  · rwa [hresults]
  · intro results' lost hother
    have heq := hother.askAll_eq
    rw [hgives.askAll_eq, Prod.mk.injEq] at heq
    have happend := hother.append_eq
    rw [← hgives.append_eq, ← heq.2] at happend
    exact ⟨heq.1.symm.trans hresults.symm, List.append_cancel_right happend⟩
  · rw [hleft, hrest, hgives.append_eq]
  · intro reading answer taken left looked hnext hbytes
    have hask : (reading.ask (Reading.askAll readings reader).2).1 =
        (reading.ask (tape.drop gone.length).stream).1 := by
      rw [← hleft]
      exact congrArg Prod.fst (rest_ask reading _)
    have hdrop : (tape.drop gone.length).bytes = taken ++ left := by
      rw [Tape.drop, hbytes, List.drop_left]
    rw [hask, Tape.ask_eq_error_iff hnext hdrop]
    have hpos := hnext.looked_pos
    cases hlimit : tape.limit? with
    | none => simp [Tape.drop, hlimit]
    | some limit =>
        simp only [Tape.drop, hlimit, Option.map_some, Option.mem_some_iff, exists_eq_left']
        omega
  · rw [hresults, hleft]
    exact hreads

/-- Chunks that end within white space and within a token.  The second token ends where the stream
breaks off, so it is lost. -/
theorem askAll_gives_all_of_chunks :
    let tape : Tape := ⟨[0x20, 0x09, 0x61, 0x62, 0x20, 0x63, 0x64], some 6⟩
    let reader : ChunkedStream := ⟨[[0x20], [0x09, 0x61], [0x62, 0x20, 0x63]], true⟩
    let readings : List Reading := [.token, .byte, .token]
    rest reader = tape.stream ∧
      tape.GivesAll readings
        [.ok (.token (some [0x61, 0x62])), .ok (.byte (some 0x20)), .error .inputFailed]
        [0x20, 0x09, 0x61, 0x62, 0x20, 0x63] := by
  intro tape reader readings
  have hrest : rest reader = tape.stream := rfl
  obtain ⟨gone, hgives, -, -, hgone, -⟩ := askAll_gives_all tape reader hrest readings
  have hread : (Reading.askAll readings reader).map id rest =
      ([.ok (.token (some [0x61, 0x62])), .ok (.byte (some 0x20)), .error .inputFailed],
        ⟨[], true⟩) :=
    rest_askAll readings reader
  have hresults := congrArg Prod.fst hread
  have hleft := congrArg Prod.snd hread
  rw [Prod.map_fst, id] at hresults
  rw [Prod.map_snd] at hleft
  rw [hleft, List.append_nil] at hgone
  rw [hresults, hgone] at hgives
  exact ⟨hrest, hgives⟩

end PieceReader

end LetterMachine
