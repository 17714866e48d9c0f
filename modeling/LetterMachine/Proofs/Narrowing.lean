import LetterMachine.Proofs.InterchangeFormat
import LetterMachine.Proofs.TokenNumerals
import Mathlib.Data.Rat.Floor
import Mathlib.Tactic.NormNum

/-!
# Doubles that become integers

A double that is read from the input is kept as an integer if it is one in the range of 64 bits.
`Value.ofBinary64_narrows` compares the value with the double: nothing is lost but the sign of a
negative zero.  Such a double has no more digits than a double can have, so that the integer goes
back to the same double, however large it is.
-/

namespace LetterMachine

/-- A number without its fraction. -/
def truncated (number : ℚ) : ℤ :=
  if 0 ≤ number then ⌊number⌋ else ⌈number⌉

/-- The integer of 64 bits that is nearest to an integer. -/
def saturated (number : ℤ) : ℤ :=
  max (-2 ^ 63) (min number (2 ^ 63 - 1))

namespace Binary64

/-- The exact value of a finite double. -/
def toRat? : Binary64 → Option ℚ
  | .finite negative magnitude => some (signedUnits negative magnitude / one)
  | _ => none

/-- The value without its fraction, or the end of the range of 64 bits that is nearest to it; zero
for what is not a number. -/
def truncation : Binary64 → ℤ
  | .nan .. => 0
  | .infinite negative => if negative then -2 ^ 63 else 2 ^ 63 - 1
  | .finite negative magnitude => saturated (truncated (signedUnits negative magnitude / one))

theorem one_pos : 0 < one := by
  rw [one]
  exact Nat.two_pow_pos 1074

theorem natAbs_signedUnits (negative : Bool) (magnitude : Magnitude) :
    (signedUnits negative magnitude).natAbs = magnitude.units := by
  cases negative <;> simp [signedUnits]

theorem exists_zero_eq (negative : Bool) :
    ∃ magnitude : Magnitude, magnitude.units = 0 ∧ zero negative = .finite negative magnitude := by
  have honGrid : OnGrid 0 := Nat.dvd_zero _
  have hrange : 0 < rangeLimit := by
    rw [rangeLimit]
    exact Nat.two_pow_pos 2098
  exact ⟨_, rfl, ofUnits_of_onGrid negative honGrid hrange⟩

theorem finite_eq_zero_iff {negative sign : Bool} {magnitude : Magnitude} :
    Binary64.finite negative magnitude = zero sign ↔ negative = sign ∧ magnitude.units = 0 := by
  obtain ⟨none, hnone, hzero⟩ := exists_zero_eq sign
  rw [hzero, Binary64.finite.injEq]
  refine and_congr_right fun _ => ⟨fun heq => ?_, fun hunits => ?_⟩
  · rw [heq, hnone]
  · exact Magnitude.ext (hunits.trans hnone.symm)

/-! ## Integers among doubles -/

theorem toRat?_finite_eq_some_iff {negative : Bool} {magnitude : Magnitude} {whole : ℤ} :
    (Binary64.finite negative magnitude).toRat? = some (whole : ℚ) ↔
      signedUnits negative magnitude = whole * one := by
  have hone : (one : ℚ) ≠ 0 := by exact_mod_cast Nat.ne_of_gt one_pos
  rw [toRat?, Option.some.injEq, div_eq_iff hone]
  exact_mod_cast Iff.rfl

/-- The integer with the same value is found if there is one. -/
theorem toInt?_eq_some_iff {number : Binary64} {whole : ℤ} :
    number.toInt? = some whole ↔ number.toRat? = some (whole : ℚ) := by
  cases number with
  | nan => exact iff_of_false nofun nofun
  | infinite => exact iff_of_false nofun nofun
  | finite negative magnitude =>
      have hone : (one : ℤ) ≠ 0 := by exact_mod_cast Nat.ne_of_gt one_pos
      have hdvd : magnitude.units % one = 0 ↔ (one : ℤ) ∣ signedUnits negative magnitude := by
        rw [Int.natCast_dvd, natAbs_signedUnits, Nat.dvd_iff_mod_eq_zero]
      rw [toRat?_finite_eq_some_iff, toInt?, Option.ite_none_right_eq_some, Option.some.injEq, hdvd,
        integralPart]
      constructor
      · rintro ⟨hwhole, hquotient⟩
        exact (Int.tdiv_eq_iff_eq_mul_left hone hwhole).mp hquotient
      · intro hproduct
        have hwhole : (one : ℤ) ∣ signedUnits negative magnitude := by
          rw [hproduct]
          exact Int.dvd_mul_left ..
        exact ⟨hwhole, (Int.tdiv_eq_iff_eq_mul_left hone hwhole).mpr hproduct⟩

theorem toInt?_zero (negative : Bool) : (zero negative).toInt? = some 0 := by
  obtain ⟨magnitude, hunits, hzero⟩ := exists_zero_eq negative
  rw [hzero, toInt?_eq_some_iff, toRat?_finite_eq_some_iff, zero_mul, ← Int.natAbs_eq_zero,
    natAbs_signedUnits, hunits]

/-- An integer that a double is goes to the same double, but for the sign of zero. -/
theorem ofInt_of_toInt? {number : Binary64} {whole : ℤ} (hwhole : number.toInt? = some whole) :
    ofInt whole = if number = zero true then zero false else number := by
  rw [toInt?_eq_some_iff] at hwhole
  cases number with
  | nan => cases hwhole
  | infinite => cases hwhole
  | finite negative magnitude =>
      rw [toRat?_finite_eq_some_iff] at hwhole
      have hone : (0 : ℤ) < one := by exact_mod_cast one_pos
      have hunits : whole.natAbs * one = magnitude.units := by
        rw [← natAbs_signedUnits negative, hwhole, Int.natAbs_mul, Int.natAbs_natCast]
      have hsign : whole < 0 ↔ signedUnits negative magnitude < 0 := by
        rw [hwhole]
        exact ⟨fun hless => mul_neg_of_neg_of_pos hless hone,
          fun hless => neg_of_mul_neg_left hless hone.le⟩
      rw [ofInt, hunits, ofUnits_of_onGrid _ magnitude.onGrid magnitude.inRange]
      split
      · rename_i hzero
        obtain ⟨-, hzero⟩ := finite_eq_zero_iff.mp hzero
        refine finite_eq_zero_iff.mpr ⟨?_, hzero⟩
        have hsigned : signedUnits negative magnitude = 0 := by
          rw [← Int.natAbs_eq_zero, natAbs_signedUnits, hzero]
        apply decide_eq_false
        rw [hsign, hsigned]
        exact lt_irrefl 0
      · rename_i hnonzero
        rw [finite_eq_zero_iff, not_and] at hnonzero
        have hnegative : decide (whole < 0) = negative := by
          cases negative with
          | false =>
              apply decide_eq_false
              rw [hsign]
              exact not_lt.mpr (Int.natCast_nonneg magnitude.units)
          | true =>
              apply decide_eq_true
              rw [hsign]
              have hpositive := Nat.pos_of_ne_zero (hnonzero rfl)
              simpa [signedUnits] using hpositive
        rw [hnegative]

/-- Division towards zero leaves the fraction out. -/
theorem truncated_div (numerator : ℤ) {denominator : ℕ} (hpos : 0 < denominator) :
    truncated (numerator / denominator) = numerator.tdiv denominator := by
  have hdenominator : (0 : ℚ) < denominator := by exact_mod_cast hpos
  unfold truncated
  split
  · rename_i hnonneg
    have hnumerator : 0 ≤ numerator := by
      rw [le_div_iff₀ hdenominator, zero_mul] at hnonneg
      exact_mod_cast hnonneg
    rw [Rat.floor_intCast_div_natCast, Int.tdiv_eq_ediv_of_nonneg hnumerator]
  · rename_i hnegative
    have hnumerator : 0 ≤ -numerator := by
      rw [le_div_iff₀ hdenominator, zero_mul, not_le] at hnegative
      have hless : numerator < 0 := by exact_mod_cast hnegative
      omega
    have hnegation : (numerator : ℚ) / denominator = -((-numerator : ℤ) / denominator) := by
      push_cast
      ring
    rw [hnegation, Int.ceil_neg, Rat.floor_intCast_div_natCast,
      ← Int.tdiv_eq_ediv_of_nonneg hnumerator, Int.neg_tdiv, neg_neg]

theorem toInt_ofIntClamp (number : ℤ) : (Int64.ofIntClamp number).toInt = saturated number := by
  have hmin := Int64.toInt_minValue
  have hmax := Int64.toInt_maxValue
  unfold Int64.ofIntClamp saturated
  split
  · split
    · rw [Int64.toInt_ofIntLE]
      omega
    · omega
  · omega

theorem toInt64_of_toInt? {number : Binary64} {whole : ℤ} (hwhole : number.toInt? = some whole) :
    number.toInt64 = Int64.ofIntClamp whole := by
  cases number with
  | nan => cases hwhole
  | infinite => cases hwhole
  | finite negative magnitude =>
      rw [toInt?, Option.ite_none_right_eq_some, Option.some.injEq] at hwhole
      obtain ⟨-, rfl⟩ := hwhole
      rfl

theorem toInt_toInt64 (number : Binary64) : number.toInt64.toInt = number.truncation := by
  cases number with
  | nan => rfl
  | infinite negative => cases negative <;> rfl
  | finite negative magnitude =>
      rw [toInt64, truncation, toInt_ofIntClamp, truncated_div _ one_pos, integralPart]

theorem toBits_zero (negative : Bool) : (zero negative).toBits = .ofNat (signBit negative) := by
  have hbits := toBits_ofUnits negative (Nat.two_pow_pos precision) (Or.inr rfl) (Nat.zero_le 2045)
  rwa [Nat.zero_mul, Nat.zero_mul, Nat.add_zero] at hbits

/-- Negative zero has an encoding of its own. -/
theorem ofBits_eq_zero_iff {bits : UInt64} :
    ofBits bits = zero true ↔ bits = 0x8000000000000000 := by
  constructor
  · intro hzero
    rw [← toBits_ofBits bits, hzero, toBits_zero]
    rfl
  · rintro rfl
    decide +kernel

end Binary64

namespace Value

/-! ## The value of a double -/

theorem ofBinary64_cases (number : Binary64) :
    (∃ whole : Int64, number.toInt? = some whole.toInt ∧ ofBinary64 number = .integer whole) ∨
      (∀ whole : Int64, number.toInt? ≠ some whole.toInt) ∧ ofBinary64 number = .float number := by
  unfold ofBinary64
  cases hwhole : number.toInt? with
  | none => exact Or.inr ⟨fun _ => nofun, rfl⟩
  | some integer =>
      rw [Option.bind_some, ofInt?_eq]
      cases hinteger : asInt64? integer with
      | none =>
          refine Or.inr ⟨fun whole heq => ?_, rfl⟩
          obtain rfl := Option.some.inj heq
          rw [asInt64?_eq_some_iff.mpr rfl] at hinteger
          cases hinteger
      | some whole =>
          exact Or.inl ⟨whole, congrArg some (asInt64?_eq_some_iff.mp hinteger).symm, rfl⟩

/-- The value is an integer just if the double is that integer, and in range. -/
theorem ofBinary64_eq_integer_iff (number : Binary64) (integer : ℤ) :
    (∃ whole : Int64, whole.toInt = integer ∧ ofBinary64 number = .integer whole) ↔
      number.toRat? = some (integer : ℚ) ∧ -2 ^ 63 ≤ integer ∧ integer < 2 ^ 63 := by
  rw [← Binary64.toInt?_eq_some_iff]
  constructor
  · rintro ⟨whole, rfl, hvalue⟩
    refine ⟨?_, Int64.le_toInt whole, Int64.toInt_lt whole⟩
    rcases ofBinary64_cases number with ⟨other, hnumber, hother⟩ | ⟨-, hfloat⟩
    · obtain rfl := Value.integer.inj (hother.symm.trans hvalue)
      exact hnumber
    · cases hfloat.symm.trans hvalue
  · rintro ⟨hnumber, hleast, hgreatest⟩
    rcases ofBinary64_cases number with ⟨whole, hwhole, hvalue⟩ | ⟨hnone, -⟩
    · exact ⟨whole, Option.some.inj (hwhole.symm.trans hnumber), hvalue⟩
    · have hinteger : (Int64.ofInt integer).toInt = integer :=
        Int64.toInt_ofInt_of_le hleast hgreatest
      exact absurd (hinteger.symm ▸ hnumber) (hnone (Int64.ofInt integer))

/-- A double that is no integer in range is the value itself. -/
theorem ofBinary64_eq_float_iff (number : Binary64) :
    ofBinary64 number = .float number ↔
      ¬∃ integer : ℤ, number.toRat? = some (integer : ℚ) ∧
        -2 ^ 63 ≤ integer ∧ integer < 2 ^ 63 := by
  simp only [← ofBinary64_eq_integer_iff]
  constructor
  · rintro hfloat ⟨integer, whole, -, hvalue⟩
    cases hfloat.symm.trans hvalue
  · intro hnone
    rcases ofBinary64_cases number with ⟨whole, -, hvalue⟩ | ⟨-, hfloat⟩
    · exact absurd ⟨_, whole, rfl, hvalue⟩ hnone
    · exact hfloat

theorem toInt64_ofBinary64 (number : Binary64) :
    (ofBinary64 number).toInt64 = (Value.float number).toInt64 := by
  rcases ofBinary64_cases number with ⟨whole, hnumber, hvalue⟩ | ⟨-, hfloat⟩
  · have hclamp := Int64.toInt_ofIntClamp (Int64.minValue_le_toInt whole) (Int64.toInt_le whole)
    rw [hvalue, toInt64, toInt64, Binary64.toInt64_of_toInt? hnumber, Int64.toInt_inj.mp hclamp]
  · rw [hfloat]

theorem toBinary64_ofBinary64 (number : Binary64) :
    (ofBinary64 number).toBinary64 =
      if number = Binary64.zero true then Binary64.zero false else number := by
  rcases ofBinary64_cases number with ⟨whole, hnumber, hvalue⟩ | ⟨hnone, hfloat⟩
  · rw [hvalue, toBinary64, Binary64.ofInt_of_toInt? hnumber]
  · have hzero : number ≠ .zero true := by
      intro hzero
      rw [hzero] at hnone
      exact hnone 0 (Binary64.toInt?_zero true)
    rw [hfloat, toBinary64, if_neg hzero]

/-- What is kept of a double in a value. -/
structure Narrows (number : Binary64) (value : Value) : Prop where
  integer_iff : ∀ integer : ℤ, (∃ whole : Int64, whole.toInt = integer ∧ value = .integer whole) ↔
    number.toRat? = some (integer : ℚ) ∧ -2 ^ 63 ≤ integer ∧ integer < 2 ^ 63
  float_iff : value = .float number ↔
    ¬∃ integer : ℤ, number.toRat? = some (integer : ℚ) ∧ -2 ^ 63 ≤ integer ∧ integer < 2 ^ 63
  toInt64_eq : value.toInt64 = (Value.float number).toInt64
  /-- As an integer, the double loses its fraction and is brought into range. -/
  toInt_toInt64_eq : value.toInt64.toInt = number.truncation
  isTruthy_eq : value.isTruthy = (Value.float number).isTruthy
  toBinary64_eq : value.toBinary64 =
    if number = Binary64.zero true then Binary64.zero false else number
  /-- Every bit of the encoding is kept but the sign of zero, also if it is no number. -/
  toBits_eq : ∀ bits, Binary64.ofBits bits = number →
    value.toBinary64.toBits = if bits = 0x8000000000000000 then 0 else bits

/-- **Nothing of a double is lost in its value but the sign of zero.** -/
theorem ofBinary64_narrows (number : Binary64) : Narrows number (ofBinary64 number) := by
  constructor
  case integer_iff => exact ofBinary64_eq_integer_iff number
  case float_iff => exact ofBinary64_eq_float_iff number
  case toInt64_eq => exact toInt64_ofBinary64 number
  case toInt_toInt64_eq => rw [toInt64_ofBinary64, toInt64, Binary64.toInt_toInt64]
  case isTruthy_eq => rw [isTruthy, isTruthy, toInt64_ofBinary64]
  case toBinary64_eq => exact toBinary64_ofBinary64 number
  case toBits_eq =>
    rintro bits rfl
    rw [toBinary64_ofBinary64]
    simp only [Binary64.ofBits_eq_zero_iff]
    split
    · exact Binary64.toBits_zero false
    · exact Binary64.toBits_ofBits bits

end Value

end LetterMachine
