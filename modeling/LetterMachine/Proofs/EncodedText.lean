import LetterMachine.Text.Utf8
import Mathlib.Tactic.SplitIfs

/-!
# Text that is encoded and decoded

Every text is read back from its bytes.  The decoder is followed through the bytes of one character:
the first byte tells how many more there are and how far the next one may range, each further byte
adds six bits, and with the last one the character is complete and nothing is left pending.
-/

namespace LetterMachine.Utf8

/-! ## The first byte of a character -/

section First

variable {byte : UInt8}

theorem begin_of_one (hbyte : byte.toNat < 0x80) :
    begin byte = ([Char.ofNat byte.toNat], none) := by
  simp only [begin, UInt8.lt_iff_toNat_lt, UInt8.reduceToNat]
  rw [if_pos hbyte]

theorem begin_of_two (hlow : 0xC2 ≤ byte.toNat) (hhigh : byte.toNat < 0xE0) :
    begin byte = ([], some ⟨byte.toNat - 0xC0, 1, 0x80, 0xBF⟩) := by
  simp only [begin, UInt8.lt_iff_toNat_lt, UInt8.reduceToNat]
  rw [if_neg (by omega), if_neg (by omega), if_pos hhigh]

theorem begin_of_three (hlow : 0xE0 ≤ byte.toNat) (hhigh : byte.toNat < 0xF0) :
    begin byte = ([], some ⟨byte.toNat - 0xE0, 2, if byte = 0xE0 then 0xA0 else 0x80,
      if byte = 0xED then 0x9F else 0xBF⟩) := by
  simp only [begin, UInt8.lt_iff_toNat_lt, UInt8.reduceToNat]
  rw [if_neg (by omega), if_neg (by omega), if_neg (by omega), if_pos hhigh]

theorem begin_of_four (hlow : 0xF0 ≤ byte.toNat) (hhigh : byte.toNat < 0xF5) :
    begin byte = ([], some ⟨byte.toNat - 0xF0, 3, if byte = 0xF0 then 0x90 else 0x80,
      if byte = 0xF4 then 0x8F else 0xBF⟩) := by
  simp only [begin, UInt8.lt_iff_toNat_lt, UInt8.reduceToNat]
  rw [if_neg (by omega), if_neg (by omega), if_neg (by omega), if_neg (by omega), if_pos hhigh]

end First

theorem decodeFrom_begin {byte : UInt8} {pending : Pending}
    (hbegin : begin byte = ([], some pending)) (rest : List UInt8) :
    decodeFrom none (byte :: rest) = decodeFrom (some pending) rest := by
  simp [decodeFrom, step, hbegin]

/-! ## The further bytes of a character -/

section Further

variable {number : Nat} {lowest highest : UInt8}

theorem toNat_further (number : Nat) :
    (UInt8.ofNat (number % 64 + 128)).toNat = number % 64 + 128 :=
  UInt8.toNat_ofNat_of_lt' (by simp [UInt8.size]; omega)

/-- A further byte in its range adds six bits. -/
theorem step_further {missing : Nat} (hlow : lowest.toNat ≤ number % 64 + 128)
    (hhigh : number % 64 + 128 ≤ highest.toNat) :
    step (some ⟨number / 64, missing, lowest, highest⟩) (UInt8.ofNat (number % 64 + 128)) =
      if missing ≤ 1 then ([Char.ofNat number], none)
      else ([], some ⟨number, missing - 1, 0x80, 0xBF⟩) := by
  have hrange : lowest ≤ UInt8.ofNat (number % 64 + 128) ∧
      UInt8.ofNat (number % 64 + 128) ≤ highest := by
    rw [UInt8.le_iff_toNat_le, UInt8.le_iff_toNat_le, toNat_further]
    exact ⟨hlow, hhigh⟩
  have hbits : number / 64 * 64 + (number % 64 + 128 - 0x80) = number := by omega
  rw [step, if_pos hrange, Pending.extend, toNat_further, hbits]

theorem decodeFrom_further {missing : Nat} (hlow : lowest.toNat ≤ number % 64 + 128)
    (hhigh : number % 64 + 128 ≤ highest.toNat) (rest : List UInt8) :
    decodeFrom (some ⟨number / 64, missing + 2, lowest, highest⟩)
      (UInt8.ofNat (number % 64 + 128) :: rest) =
        decodeFrom (some ⟨number, missing + 1, 0x80, 0xBF⟩) rest := by
  rw [decodeFrom, step_further hlow hhigh, if_neg (by omega)]
  rfl

theorem further_in_range (number : Nat) :
    (0x80 : UInt8).toNat ≤ number % 64 + 128 ∧ number % 64 + 128 ≤ (0xBF : UInt8).toNat := by
  simp only [UInt8.reduceToNat]
  omega

theorem decodeFrom_third (number : Nat) {missing : Nat} (rest : List UInt8) :
    decodeFrom (some ⟨number / 64, missing + 2, 0x80, 0xBF⟩)
      (UInt8.ofNat (number % 64 + 128) :: rest) =
        decodeFrom (some ⟨number, missing + 1, 0x80, 0xBF⟩) rest :=
  have ⟨hlow, hhigh⟩ := further_in_range number
  decodeFrom_further hlow hhigh rest

theorem decodeFrom_last (number : Nat) (rest : List UInt8) :
    decodeFrom (some ⟨number / 64, 1, 0x80, 0xBF⟩) (UInt8.ofNat (number % 64 + 128) :: rest) =
      Char.ofNat number :: decodeFrom none rest := by
  have ⟨hlow, hhigh⟩ := further_in_range number
  rw [decodeFrom, step_further hlow hhigh, if_pos (Nat.le_refl 1)]
  rfl

end Further

/-! ## Whole characters -/

section Character

variable {number : Nat}

theorem toNat_leading (bits mark : Nat) (hfits : bits + mark < 256) :
    (UInt8.ofNat (bits + mark)).toNat = bits + mark :=
  UInt8.toNat_ofNat_of_lt' (by simpa [UInt8.size] using hfits)

theorem decodeFrom_one (hhigh : number < 0x80) (rest : List UInt8) :
    decodeFrom none (UInt8.ofNat number :: rest) = Char.ofNat number :: decodeFrom none rest := by
  have hnumber : (UInt8.ofNat number).toNat = number :=
    UInt8.toNat_ofNat_of_lt' (by simp only [UInt8.size]; omega)
  rw [decodeFrom, step, begin_of_one (by rwa [hnumber]), hnumber]
  rfl

theorem decodeFrom_two (hlow : 0x80 ≤ number) (hhigh : number < 0x800) (rest : List UInt8) :
    decodeFrom none
        (UInt8.ofNat (number / 64 % 32 + 192) :: UInt8.ofNat (number % 64 + 128) :: rest) =
      Char.ofNat number :: decodeFrom none rest := by
  have hleading := toNat_leading (number / 64 % 32) 192 (by omega)
  have hbits : number / 64 % 32 + 192 - 0xC0 = number / 64 := by omega
  rw [decodeFrom_begin (begin_of_two (by omega) (by omega)), hleading, hbits, decodeFrom_last]

/-- The lowest number of three bytes is not one that fits in two, and surrogates are left out by the
highest byte that may come second. -/
theorem decodeFrom_three (hlow : 0x800 ≤ number) (hhigh : number < 0x10000)
    (hsurrogate : number < 0xD800 ∨ 0xDFFF < number) (rest : List UInt8) :
    decodeFrom none
        (UInt8.ofNat (number / 4096 % 16 + 224) :: UInt8.ofNat (number / 64 % 64 + 128) ::
          UInt8.ofNat (number % 64 + 128) :: rest) =
      Char.ofNat number :: decodeFrom none rest := by
  have hleading := toNat_leading (number / 4096 % 16) 224 (by omega)
  have hbits : number / 4096 % 16 + 224 - 0xE0 = number / 64 / 64 := by omega
  rw [decodeFrom_begin (begin_of_three (by omega) (by omega)), hleading, hbits,
    decodeFrom_further, decodeFrom_last]
  all_goals
    simp only [apply_ite UInt8.toNat, ← UInt8.toNat_inj, hleading, UInt8.reduceToNat]
    split <;> omega

theorem decodeFrom_four (hlow : 0x10000 ≤ number) (hhigh : number < 0x110000)
    (rest : List UInt8) :
    decodeFrom none
        (UInt8.ofNat (number / 262144 % 8 + 240) :: UInt8.ofNat (number / 4096 % 64 + 128) ::
          UInt8.ofNat (number / 64 % 64 + 128) :: UInt8.ofNat (number % 64 + 128) :: rest) =
      Char.ofNat number :: decodeFrom none rest := by
  have hleading := toNat_leading (number / 262144 % 8) 240 (by omega)
  have hbits : number / 262144 % 8 + 240 - 0xF0 = number / 4096 / 64 := by omega
  have hmiddle : number / 4096 = number / 64 / 64 := by omega
  rw [decodeFrom_begin (begin_of_four (by omega) (by omega)), hleading, hbits,
    decodeFrom_further, hmiddle, decodeFrom_third, decodeFrom_last]
  all_goals
    simp only [apply_ite UInt8.toNat, ← UInt8.toNat_inj, hleading, UInt8.reduceToNat]
    split <;> omega

end Character

theorem decodeFrom_character (character : Char) (rest : List UInt8) :
    decodeFrom none (String.utf8EncodeChar character ++ rest) =
      character :: decodeFrom none rest := by
  have hvalid : character.val.toNat.isValidChar := character.valid
  have hnumber : Char.ofNat character.val.toNat = character := Char.ofNat_toNat character
  simp only [String.utf8EncodeChar]
  split_ifs with hone htwo hthree
  · rw [List.singleton_append, decodeFrom_one (by omega), hnumber]
  · simp only [List.cons_append, List.nil_append]
    rw [decodeFrom_two (by omega) (by omega), hnumber]
  · simp only [List.cons_append, List.nil_append]
    rw [decodeFrom_three (by omega) (by omega) (by omega), hnumber]
  · simp only [List.cons_append, List.nil_append]
    rw [decodeFrom_four (by omega) (by omega), hnumber]

/-- Text comes back from its bytes. -/
theorem decode_encode (text : List Char) : decode (encode text) = text := by
  induction text with
  | nil => rfl
  | cons character text ih =>
    rw [encode, List.flatMap_cons, decode, decodeFrom_character]
    exact congrArg (character :: ·) ih

end LetterMachine.Utf8
