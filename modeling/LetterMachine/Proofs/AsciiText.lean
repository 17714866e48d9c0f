import LetterMachine.Proofs.EncodedText

/-!
# Characters of one byte in decoded text

The bytes of a text need not be those of any characters, and what is decoded then has replacement
characters in it.  A character of one byte is never among the damage.  Its byte always ends a
character that is unfinished, and no sequence of several bytes gives such a character, so it stands
in the decoded text exactly where its byte stands among the bytes.
-/

namespace LetterMachine.Utf8

/-- A character of one byte.  The one of number zero is left out, as it also stands for the numbers
that are no character. -/
def IsShort (c : Char) : Prop :=
  0 < c.toNat ∧ c.toNat < 0x80

instance (c : Char) : Decidable (IsShort c) :=
  inferInstanceAs (Decidable (_ ∧ _))

/-- The byte of a character of one byte. -/
def byteOf (c : Char) : UInt8 :=
  UInt8.ofNat c.toNat

/-- The character of a byte that is a character by itself. -/
def charOf (byte : UInt8) : Char :=
  Char.ofNat byte.toNat

section Short

variable {c : Char} {byte : UInt8}

theorem toNat_byteOf (hshort : IsShort c) : (byteOf c).toNat = c.toNat :=
  UInt8.toNat_ofNat_of_lt' (Nat.lt_trans hshort.2 (by decide))

theorem charOf_byteOf (hshort : IsShort c) : charOf (byteOf c) = c := by
  rw [charOf, toNat_byteOf hshort, Char.ofNat_toNat]

theorem toNat_ofNat_of_isValidChar {number : Nat} (hvalid : number.isValidChar) :
    (Char.ofNat number).toNat = number := by
  rw [Char.ofNat, dif_pos hvalid]
  rfl

theorem toNat_charOf (hbyte : byte.toNat < 0x80) : (charOf byte).toNat = byte.toNat :=
  toNat_ofNat_of_isValidChar (Or.inl (by omega))

theorem byteOf_charOf (hbyte : byte.toNat < 0x80) : byteOf (charOf byte) = byte := by
  rw [byteOf, toNat_charOf hbyte, UInt8.ofNat_toNat]

theorem not_isShort_replacement : ¬IsShort replacement := by
  decide

/-- A number of more than one byte is not that of a character of one byte. -/
theorem not_isShort_ofNat {number : Nat} (hnumber : 0x80 ≤ number) :
    ¬IsShort (Char.ofNat number) := by
  intro hshort
  by_cases hvalid : number.isValidChar
  · rw [IsShort, toNat_ofNat_of_isValidChar hvalid] at hshort
    exact absurd hshort.2 (Nat.not_lt_of_le hnumber)
  · rw [IsShort, Char.ofNat, dif_neg hvalid] at hshort
    exact absurd hshort.1 (by decide)

theorem lt_of_isShort_charOf {byte : UInt8} (hshort : IsShort (charOf byte)) :
    byte.toNat < 0x80 := by
  apply Nat.lt_of_not_le
  intro hbyte
  exact not_isShort_ofNat hbyte hshort

theorem utf8Size_of_isShort (hshort : IsShort c) : c.utf8Size = 1 := by
  rw [Char.utf8Size_eq_one_iff, UInt32.le_iff_toNat_le]
  exact Nat.le_of_lt_succ hshort.2

end Short

/-! ## Characters of several bytes -/

/-- An unfinished character is wide if it will have a number of more than one byte, and if no byte
that is a character by itself continues it. -/
structure Pending.Wide (pending : Pending) : Prop where
  lowest_ge : 0x80 ≤ pending.lowest.toNat
  /-- The least number that the next byte can make of the bits so far. -/
  bits_ge : (if pending.missing ≤ 1 then 0x80 else 2) ≤
    pending.bits * 64 + (pending.lowest.toNat - 0x80)

/-- What a byte gives that is no character by itself: characters of several bytes, or at least a
wide one that is unfinished. -/
structure Progress.Wide (progress : Progress) : Prop where
  not_isShort : ∀ c ∈ progress.1, ¬IsShort c
  pending : ∀ pending ∈ progress.2, pending.Wide
  nonempty : progress.1 = [] → progress.2 ≠ none

theorem wide_of_none : ∀ pending ∈ (none : Option Pending), pending.Wide :=
  fun _ hmem => nomatch hmem

theorem Progress.wide_character {c : Char} (hshort : ¬IsShort c) : Progress.Wide ([c], none) :=
  ⟨by simpa using hshort, wide_of_none, nofun⟩

theorem Progress.wide_pending {pending : Pending} (hwide : pending.Wide) :
    Progress.Wide ([], some pending) :=
  ⟨nofun, by simpa using hwide, nofun⟩

theorem Progress.Wide.giveUp {progress : Progress} (hwide : progress.Wide) :
    Progress.Wide (replacement :: progress.1, progress.2) :=
  ⟨by simpa using ⟨not_isShort_replacement, hwide.not_isShort⟩, hwide.pending, nofun⟩

theorem wide_begin {byte : UInt8} (hbyte : 0x80 ≤ byte.toNat) : Progress.Wide (begin byte) := by
  simp only [begin, UInt8.lt_iff_toNat_lt, ← UInt8.toNat_inj, UInt8.reduceToNat]
  split_ifs
  all_goals first
    | omega
    | exact Progress.wide_character not_isShort_replacement
    | apply Progress.wide_pending
      constructor <;> simp <;> omega

theorem wide_extend {pending : Pending} (hwide : pending.Wide) {byte : UInt8}
    (hlowest : pending.lowest.toNat ≤ byte.toNat) : Progress.Wide (pending.extend byte) := by
  obtain ⟨hlow, hbits⟩ := hwide
  unfold Pending.extend
  by_cases hmissing : pending.missing ≤ 1
  · rw [if_pos hmissing] at hbits ⊢
    exact Progress.wide_character (not_isShort_ofNat (by omega))
  · rw [if_neg hmissing] at hbits ⊢
    apply Progress.wide_pending
    refine ⟨by simp, ?_⟩
    simp only [UInt8.reduceToNat]
    split <;> omega

/-! ## One byte at a time -/

/-- What is left of an unfinished character that is given up. -/
def givenUp (pending? : Option Pending) : List Char :=
  if pending?.isSome then [replacement] else []

variable {pending? : Option Pending} {byte : UInt8}

theorem step_of_ascii (hpending : ∀ pending ∈ pending?, pending.Wide) (hbyte : byte.toNat < 0x80) :
    step pending? byte = (givenUp pending? ++ [charOf byte], none) := by
  cases pending? with
  | none => exact begin_of_one hbyte
  | some pending =>
      have hrange : ¬(pending.lowest ≤ byte ∧ byte ≤ pending.highest) := by
        have hlowest := (hpending pending rfl).lowest_ge
        rw [UInt8.le_iff_toNat_le]
        omega
      rw [step, if_neg hrange, begin_of_one hbyte]
      rfl

theorem wide_step (hpending : ∀ pending ∈ pending?, pending.Wide) (hbyte : 0x80 ≤ byte.toNat) :
    Progress.Wide (step pending? byte) := by
  cases pending? with
  | none => exact wide_begin hbyte
  | some pending =>
      by_cases hrange : pending.lowest ≤ byte ∧ byte ≤ pending.highest
      · rw [step, if_pos hrange]
        exact wide_extend (hpending pending rfl) (UInt8.le_iff_toNat_le.mp hrange.1)
      · rw [step, if_neg hrange]
        exact (wide_begin hbyte).giveUp

theorem not_isShort_of_mem_givenUp : ∀ c ∈ givenUp pending?, ¬IsShort c := by
  intro c hmem
  unfold givenUp at hmem
  split at hmem
  · obtain rfl := List.mem_singleton.mp hmem
    exact not_isShort_replacement
  · cases hmem

/-! ## Whole texts -/

variable {c : Char}

theorem mem_decodeFrom_iff (hshort : IsShort c) {pending? : Option Pending}
    (hpending : ∀ pending ∈ pending?, pending.Wide) (bytes : List UInt8) :
    c ∈ decodeFrom pending? bytes ↔ byteOf c ∈ bytes := by
  have hgivenUp : ∀ {pending? : Option Pending}, c ∉ givenUp pending? :=
    fun hmem => not_isShort_of_mem_givenUp c hmem hshort
  induction bytes generalizing pending? with
  | nil =>
      have hnot : c ∉ decodeFrom pending? [] := hgivenUp
      simpa using hnot
  | cons byte rest ih =>
      rw [decodeFrom, List.mem_append, List.mem_cons]
      by_cases hbyte : byte.toNat < 0x80
      · have hsame : c = charOf byte ↔ byteOf c = byte := by
          constructor
          · rintro rfl
            exact byteOf_charOf hbyte
          · rintro rfl
            exact (charOf_byteOf hshort).symm
        rw [step_of_ascii hpending hbyte, List.mem_append, List.mem_singleton, hsame,
          or_iff_right hgivenUp]
        exact or_congr_right (ih wide_of_none)
      · obtain ⟨hnone, hnext, -⟩ := wide_step hpending (Nat.le_of_not_lt hbyte)
        have hnot : c ∉ (step pending? byte).1 := fun hmem => hnone c hmem hshort
        have hother : byteOf c ≠ byte := by
          rintro rfl
          rw [toNat_byteOf hshort] at hbyte
          exact hbyte hshort.2
        rw [or_iff_right hnot, or_iff_right hother]
        exact ih hnext

/-- **A character of one byte is in a decoded text exactly if its byte is among the bytes.** -/
theorem mem_decode_iff (hshort : IsShort c) (bytes : List UInt8) :
    c ∈ decode bytes ↔ byteOf c ∈ bytes :=
  mem_decodeFrom_iff hshort wide_of_none bytes

theorem decode_cons_of_ascii (hbyte : byte.toNat < 0x80) (rest : List UInt8) :
    decode (byte :: rest) = charOf byte :: decode rest := by
  rw [decode, decodeFrom, step_of_ascii wide_of_none hbyte]
  rfl

theorem decodeFrom_cons (pending? : Option Pending) (byte : UInt8) (rest : List UInt8) :
    decodeFrom pending? (byte :: rest) =
      (step pending? byte).1 ++ decodeFrom (step pending? byte).2 rest :=
  rfl

/-- A byte that is a character by itself ends what is before it, and what is behind it begins
anew. -/
theorem decodeFrom_append_cons_of_ascii (hbyte : byte.toNat < 0x80) {pending? : Option Pending}
    (hpending : ∀ pending ∈ pending?, pending.Wide) (front rest : List UInt8) :
    decodeFrom pending? (front ++ byte :: rest) =
      decodeFrom pending? front ++ charOf byte :: decode rest := by
  induction front generalizing pending? with
  | nil =>
      rw [List.nil_append, decodeFrom_cons, step_of_ascii hpending hbyte, List.append_assoc]
      rfl
  | cons first front ih =>
      have hnext : ∀ pending ∈ (step pending? first).2, pending.Wide := by
        rcases Nat.lt_or_ge first.toNat 0x80 with hfirst | hfirst
        · rw [step_of_ascii hpending hfirst]
          exact wide_of_none
        · exact (wide_step hpending hfirst).pending
      rw [List.cons_append, decodeFrom_cons, decodeFrom_cons, ih hnext, List.append_assoc]

theorem decode_append_cons_of_ascii (hbyte : byte.toNat < 0x80) (front rest : List UInt8) :
    decode (front ++ byte :: rest) = decode front ++ charOf byte :: decode rest :=
  decodeFrom_append_cons_of_ascii hbyte wide_of_none front rest

/-- Bytes that are characters by themselves are decoded to these characters. -/
theorem decode_append_of_ascii {front : List UInt8} (hfront : ∀ byte ∈ front, byte.toNat < 0x80)
    (rest : List UInt8) : decode (front ++ rest) = front.map charOf ++ decode rest := by
  induction front with
  | nil => rfl
  | cons byte front ih =>
      rw [List.forall_mem_cons] at hfront
      rw [List.cons_append, decode_cons_of_ascii hfront.1, ih hfront.2]
      rfl

/-- What a byte gives that is no character by itself does not begin with a character of one byte, if
nothing does that comes of the unfinished character it leaves. -/
theorem Progress.Wide.not_isShort_head {progress : Progress} (hwide : progress.Wide)
    {rest : List UInt8} (hlater : ∀ later ∈ progress.2,
      ∀ c ∈ (decodeFrom (some later) rest).head?, ¬IsShort c) :
    ∀ c ∈ (progress.1 ++ decodeFrom progress.2 rest).head?, ¬IsShort c := by
  obtain ⟨hnone, -, hnonempty⟩ := hwide
  obtain ⟨characters, pending?⟩ := progress
  cases characters with
  | cons first more => simpa using hnone first List.mem_cons_self
  | nil =>
      cases pending? with
      | some later => exact hlater later rfl
      | none => exact absurd rfl (hnonempty rfl)

theorem not_isShort_head_decodeFrom {pending : Pending} (hwide : pending.Wide)
    (bytes : List UInt8) : ∀ c ∈ (decodeFrom (some pending) bytes).head?, ¬IsShort c := by
  induction bytes generalizing pending with
  | nil => simpa [decodeFrom] using not_isShort_replacement
  | cons byte rest ih =>
      have hpending : ∀ found ∈ some pending, found.Wide := by simpa using hwide
      rw [decodeFrom]
      by_cases hbyte : byte.toNat < 0x80
      · rw [step_of_ascii hpending hbyte]
        simpa [givenUp] using not_isShort_replacement
      · have hstep := wide_step hpending (Nat.le_of_not_lt hbyte)
        exact hstep.not_isShort_head fun later hmem => ih (hstep.pending later hmem)

/-- A decoded text begins with a character of one byte only if the bytes do. -/
theorem exists_of_decode_eq_cons (hshort : IsShort c) {bytes : List UInt8} {text : List Char}
    (hdecode : decode bytes = c :: text) :
    ∃ rest, bytes = byteOf c :: rest ∧ decode rest = text := by
  cases bytes with
  | nil => cases hdecode
  | cons byte rest =>
      by_cases hbyte : byte.toNat < 0x80
      · rw [decode_cons_of_ascii hbyte] at hdecode
        obtain ⟨rfl, rfl⟩ := List.cons.inj hdecode
        exact ⟨rest, by rw [byteOf_charOf hbyte], rfl⟩
      · have hbegin := wide_begin (Nat.le_of_not_lt hbyte)
        have hhead := hbegin.not_isShort_head
          fun later hmem => not_isShort_head_decodeFrom (hbegin.pending later hmem) rest
        have hfirst : c ∈ ((begin byte).1 ++ decodeFrom (begin byte).2 rest).head? := by
          change c ∈ (decode (byte :: rest)).head?
          rw [hdecode]
          rfl
        exact absurd hshort (hhead c hfirst)

/-- The front parts of a decoded text that are of characters of one byte are those of the bytes. -/
theorem isPrefix_decode_iff {text : List Char} (hshort : ∀ c ∈ text, IsShort c)
    {bytes : List UInt8} :
    text <+: decode bytes ↔ ∃ front, front <+: bytes ∧ front.map charOf = text := by
  constructor
  · rintro ⟨rest, hdecode⟩
    induction text generalizing bytes with
    | nil => exact ⟨[], List.nil_prefix, rfl⟩
    | cons c text ih =>
        rw [List.forall_mem_cons] at hshort
        obtain ⟨behind, rfl, hbehind⟩ := exists_of_decode_eq_cons hshort.1 hdecode.symm
        obtain ⟨front, hfront, rfl⟩ := ih hshort.2 hbehind.symm
        refine ⟨byteOf c :: front, List.cons_prefix_cons.mpr ⟨rfl, hfront⟩, ?_⟩
        rw [List.map_cons, charOf_byteOf hshort.1]
  · rintro ⟨front, ⟨rest, rfl⟩, rfl⟩
    have hfront : ∀ byte ∈ front, byte.toNat < 0x80 := fun byte hmem =>
      lt_of_isShort_charOf (hshort _ (List.mem_map_of_mem hmem))
    rw [decode_append_of_ascii hfront]
    exact List.prefix_append _ _

/-! ## Encoded texts -/

section Encoded

variable {front : List Char}

theorem encode_append (front rest : List Char) :
    encode (front ++ rest) = encode front ++ encode rest :=
  List.flatMap_append

theorem encode_cons_of_isShort (hshort : IsShort c) (rest : List Char) :
    encode (c :: rest) = byteOf c :: encode rest := by
  rw [encode, List.flatMap_cons, String.utf8EncodeChar_eq_singleton (utf8Size_of_isShort hshort)]
  rfl

theorem encode_of_isShort (hfront : ∀ c ∈ front, IsShort c) : encode front = front.map byteOf := by
  induction front with
  | nil => rfl
  | cons c front ih =>
      rw [List.forall_mem_cons] at hfront
      rw [encode_cons_of_isShort hfront.1, ih hfront.2, List.map_cons]

/-- A character of one byte stands at the beginning of a text if its byte does. -/
theorem head?_encode_iff (hshort : IsShort c) (text : List Char) :
    (encode text).head? = some (byteOf c) ↔ text.head? = some c := by
  constructor
  · intro hhead
    obtain ⟨rest, hrest⟩ := List.head?_eq_some_iff.mp hhead
    have htext := decode_encode text
    have hbyte : (byteOf c).toNat < 0x80 := by
      rw [toNat_byteOf hshort]
      exact hshort.2
    rw [hrest, decode_cons_of_ascii hbyte, charOf_byteOf hshort] at htext
    rw [← htext]
    rfl
  · intro hhead
    obtain ⟨rest, rfl⟩ := List.head?_eq_some_iff.mp hhead
    rw [encode_cons_of_isShort hshort]
    rfl

end Encoded

end LetterMachine.Utf8
