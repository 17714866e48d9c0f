import LetterMachine.Decimal.Digits
import LetterMachine.Decimal.IndexWidth
import LetterMachine.Proofs.Narrowing
import LetterMachine.Proofs.NearestDoubles
import Mathlib.Algebra.Order.Floor.Semifield
import Mathlib.Analysis.Complex.ExponentialBounds
import Mathlib.Analysis.SpecialFunctions.Log.Base

/-!
# The width of a column of positions

The width of a column is one more than the floor of the decimal logarithm of the last position in
it, computed in doubles.  The logarithm is that of the system: `Logarithm.Accurate` says what
libraries document of theirs, an error of at most two units in the last place and exact results for
the powers of ten, and `Logarithm.Increasing` that it does not fall.

`Decimal.indexWidth_fits` says how wide the column is then.  It is as wide as the last position,
which is as narrow as a column can be, for up to `10 ^ 14` positions, and beyond that wherever the
last position is not too near to a power of ten.  Just below a power of ten either the conversion to
a double or the logarithm can round up to it, and the column is a place too wide.
`Logarithm.grid` is a logarithm of this kind, and `Decimal.indexWidth_of_quadrillion` a column that
it makes too wide.
-/

namespace LetterMachine

/-! ## Lengths of numerals -/

namespace Decimal

section Lengths

variable {width : Nat}

theorem length_padded (width number : Nat) :
    (padded width number).length = max width (digits number).length := by
  rw [padded, List.length_append, List.length_replicate]
  omega

theorem length_digits_le_length_digits {left right : Nat} (hle : left ≤ right) :
    (digits left).length ≤ (digits right).length := by
  have hright := lt_pow_length_digits right
  exact (Nat.length_toDigits_le_iff (by decide) Nat.length_toDigits_pos).mpr
    (Nat.lt_of_le_of_lt hle hright)

/-- The narrowest column for the positions below a count is as wide as the last of them. -/
theorem forall_length_padded_iff {count : Nat} (hcount : 0 < count) :
    (∀ position < count, (padded width position).length = width) ↔
      (digits (count - 1)).length ≤ width := by
  simp only [length_padded, max_eq_left_iff]
  constructor
  · intro hall
    exact hall (count - 1) (by omega)
  · intro hlast position hposition
    exact Nat.le_trans (length_digits_le_length_digits (by omega)) hlast

end Lengths

end Decimal

/-! ## Conversions -/

namespace Binary64

theorem onGrid_mul_one {significand : ℕ} (hsignificand : significand ≤ 2 ^ precision)
    (exponent : ℕ) : OnGrid (significand * 2 ^ exponent * one) := by
  have hproduct : significand * 2 ^ exponent * one = significand * 2 ^ (exponent + 1074) := by
    unfold one
    generalize (1074 : ℕ) = places
    rw [Nat.mul_assoc, ← Nat.pow_add]
  rw [hproduct]
  exact onGrid_mul_two_pow hsignificand _

/-- Integers of 53 bits are on the grid. -/
theorem onGrid_of_le {number : ℕ} (hnumber : number ≤ 2 ^ precision) : OnGrid (number * one) :=
  (Nat.mul_one number) ▸ onGrid_mul_one hnumber 0

theorem mul_one_le_largest {number : ℕ} (hnumber : number < 2 ^ (64 : ℕ)) :
    number * one ≤ largest := by
  have hlimit (exponent : ℕ) (hexponent : 64 + 1074 ≤ exponent) :
      2 ^ (64 : ℕ) * one ≤ (2 ^ (53 : ℕ) - 1) * 2 ^ exponent := by
    unfold one
    generalize (1074 : ℕ) = places at hexponent ⊢
    rw [← Nat.pow_add]
    exact (Nat.pow_le_pow_right (by decide) hexponent).trans (Nat.le_mul_of_pos_left _ (by decide))
  calc number * one ≤ 2 ^ (64 : ℕ) * one := Nat.mul_le_mul_right _ hnumber.le
    _ ≤ largest := by
        unfold largest
        exact hlimit 2045 (by decide)

/-- The value of the double nearest to an integer. -/
theorem exists_toRat?_ofInt {number : ℕ} (hnumber : number < 2 ^ (64 : ℕ)) :
    ∃ value : ℚ, (ofInt number).toRat? = some value ∧
      (number ≠ 0 → |value - number| ≤ number / 2 ^ (53 : ℕ)) ∧
      ∀ {other : ℕ}, OnGrid (other * one) → |value - number| ≤ |(other : ℚ) - number| := by
  have hone : (0 : ℚ) < one := by exact_mod_cast one_pos
  have hquotient : ((number * one : ℕ) : ℚ) / (1 : ℕ) = number * one := by
    rw [Nat.cast_one, div_one, Nat.cast_mul]
  have hrange : nearestUnits (number * one) 1 < rangeLimit := by
    apply nearestUnits_lt_rangeLimit _ Nat.one_pos
    rw [hquotient]
    exact_mod_cast mul_one_le_largest hnumber
  have hdouble : ofInt number =
      .finite false ⟨_, onGrid_nearestUnits (number * one) 1, hrange⟩ := by
    have hsign : decide ((number : ℤ) < 0) = false := decide_eq_false (by omega)
    rw [ofInt, hsign, Int.natAbs_natCast, ofUnits, dif_pos hrange]
  have hdistance (units : ℕ) (value : ℚ) :
      |(units : ℚ) / one - value| * one = |(units : ℚ) - value * one| := by
    rw [abs_sub_mul_of_pos hone, div_mul_cancel₀ _ hone.ne']
  refine ⟨_, hdouble ▸ toRat?_finite .., ?_, ?_⟩
  · intro hnonzero
    have hnormal : 2 ^ (52 : ℕ) ≤ number * one / 1 := by
      have hone : 2 ^ (52 : ℕ) ≤ one := by
        have hexponent : 52 ≤ 1074 := by decide
        unfold one
        generalize (1074 : ℕ) = places at hexponent ⊢
        exact Nat.pow_le_pow_right (by decide) hexponent
      rw [Nat.div_one]
      exact hone.trans (Nat.le_mul_of_pos_left _ (Nat.pos_of_ne_zero hnonzero))
    have hnear := abs_nearestUnits_sub_le_of_normal (number * one) Nat.one_pos hnormal
    rw [hquotient, ← hdistance, mul_div_right_comm] at hnear
    exact le_of_mul_le_mul_right hnear hone
  · intro other honGrid
    have hnearest := abs_nearestUnits_sub_le (number * one) Nat.one_pos honGrid
    rw [hquotient, ← hdistance, ← hdistance, Nat.cast_mul, mul_div_cancel_right₀ _ hone.ne']
      at hnearest
    exact le_of_mul_le_mul_right hnearest hone

/-- An integer on the grid is converted without loss. -/
theorem toRat?_ofInt_of_onGrid {number : ℕ} (hnumber : number < 2 ^ (64 : ℕ))
    (honGrid : OnGrid (number * one)) : (ofInt number).toRat? = some (number : ℚ) := by
  obtain ⟨value, hvalue, -, hnearest⟩ := exists_toRat?_ofInt hnumber
  have hexact := hnearest honGrid
  rw [sub_self, abs_zero, abs_nonpos_iff, sub_eq_zero] at hexact
  rw [hvalue, hexact]

/-- The powers of ten that are doubles. -/
theorem onGrid_ten_pow {exponent : ℕ} (hexponent : exponent ≤ 22) :
    OnGrid (10 ^ exponent * one) := by
  have hfive : 5 ^ exponent ≤ 2 ^ precision :=
    (Nat.pow_le_pow_right (by decide) hexponent).trans (by decide)
  have hsplit : 10 ^ exponent = 5 ^ exponent * 2 ^ exponent := (Nat.mul_pow 5 2 exponent)
  rw [hsplit]
  exact onGrid_mul_one hfive exponent

/-- Rounding does not go below a double. -/
theorem le_of_nearest {value number other : ℚ} (hle : other ≤ number)
    (hnearest : |value - number| ≤ |other - number|) : other ≤ value := by
  rw [abs_of_nonpos (sub_nonpos.mpr hle)] at hnearest
  linarith [neg_abs_le (value - number)]

/-- Nor above one. -/
theorem ge_of_nearest {value number other : ℚ} (hle : number ≤ other)
    (hnearest : |value - number| ≤ |other - number|) : value ≤ other := by
  rw [abs_of_nonneg (sub_nonneg.mpr hle)] at hnearest
  linarith [le_abs_self (value - number)]

theorem toUInt64_of_negative (magnitude : Magnitude) :
    (Binary64.finite true magnitude).toUInt64 = 0 := by
  have hunits : (0 : ℤ) ≤ (magnitude.units : ℤ).tdiv one :=
    Int.tdiv_nonneg (Int.natCast_nonneg _) (Int.natCast_nonneg _)
  rw [toUInt64, integralPart, signedUnits, if_pos rfl, Int.neg_tdiv,
    Int.toNat_of_nonpos (Int.neg_nonpos_of_nonneg hunits)]
  rfl

theorem toUInt64_ofUnits_of_negative (numerator denominator : ℕ) :
    (ofUnits true numerator denominator).toUInt64 = 0 := by
  unfold ofUnits
  split
  · exact toUInt64_of_negative _
  · rfl

/-- The integral part of a double that is not too large, where what is negative goes to zero. -/
theorem toNat_floor {number : Binary64} {value : ℚ} (hvalue : number.toRat? = some value)
    (hsmall : value < 2 ^ (53 : ℕ)) : number.floor.toUInt64.toNat = ⌊value⌋₊ := by
  have hone : (0 : ℚ) < one := by exact_mod_cast one_pos
  cases number with
  | nan => cases hvalue
  | infinite => cases hvalue
  | finite negative magnitude =>
      rw [toRat?_finite, Option.some.injEq] at hvalue
      subst hvalue
      cases negative with
      | true =>
          have hnonpos : signed true (magnitude.units / one : ℚ) ≤ 0 :=
            neg_nonpos_of_nonneg (units_div_nonneg _)
          rw [floor, toUInt64_ofUnits_of_negative, Nat.floor_of_nonpos hnonpos]
          rfl
      | false =>
          change (magnitude.units / one : ℚ) < 2 ^ (53 : ℕ) at hsmall
          change _ = ⌊(magnitude.units / one : ℚ)⌋₊
          have hfloor : ⌊(magnitude.units / one : ℚ)⌋₊ = magnitude.units / one :=
            Nat.floor_div_eq_div magnitude.units one
          have hwhole : magnitude.units / one < 2 ^ (53 : ℕ) := by
            rw [← hfloor, Nat.floor_lt (units_div_nonneg _)]
            exact hsmall.trans_eq (by norm_cast)
          have hfdiv : (signedUnits false magnitude).fdiv one = (magnitude.units / one : ℕ) :=
            (Int.ofNat_fdiv magnitude.units one).symm
          have hgrid := onGrid_of_le hwhole.le
          have hrange : magnitude.units / one * one < rangeLimit :=
            (Nat.div_mul_le_self _ _).trans_lt magnitude.inRange
          rw [hfloor, floor, hfdiv, Int.natAbs_natCast, ofUnits_of_onGrid _ hgrid hrange]
          generalize magnitude.units / one = whole at *
          have hintegral : integralPart false ⟨whole * one, hgrid, hrange⟩ = whole := by
            rw [integralPart, signedUnits, if_neg Bool.false_ne_true, Nat.cast_mul]
            exact Int.mul_tdiv_cancel _ (by exact_mod_cast one_pos.ne')
          have hsize : UInt64.size = 2 ^ (64 : ℕ) := rfl
          rw [toUInt64, hintegral, Int.toNat_natCast, UInt64.toNat_ofNat_of_lt'] <;> omega

end Binary64

/-! ## Logarithms -/

theorem logb_ten_pow (exponent : ℕ) : Real.logb 10 (10 ^ exponent : ℝ) = exponent := by
  rw [Real.logb_pow, Real.logb_self_eq_one (by norm_num), mul_one]

/-- One logarithm is above another by a part of how much larger its number is. -/
theorem le_logb_sub_logb {lower upper : ℝ} (hlower : 0 < lower) (hle : lower ≤ upper) :
    2 / 5 * (1 - lower / upper) ≤ Real.logb 10 upper - Real.logb 10 lower := by
  have hupper := hlower.trans_le hle
  have hten : Real.log 10 ≤ 5 / 2 := by
    have hpower : 3 * Real.log 10 ≤ 10 * Real.log 2 := by
      have hle : Real.log ((10 : ℝ) ^ 3) ≤ Real.log ((2 : ℝ) ^ 10) :=
        Real.log_le_log (by norm_num) (by norm_num)
      rwa [Real.log_pow, Real.log_pow] at hle
    have htwo := Real.log_two_lt_d9
    linarith
  have hpos : 0 < Real.log 10 := Real.log_pos (by norm_num)
  have hlog := Real.one_sub_inv_le_log_of_pos (div_pos hupper hlower)
  have hnonneg : 0 ≤ 1 - lower / upper := sub_nonneg.mpr ((div_le_one hupper).mpr hle)
  rw [inv_div] at hlog
  rw [← Real.logb_div hupper.ne' hlower.ne', Real.logb, le_div_iff₀ hpos]
  calc 2 / 5 * (1 - lower / upper) * Real.log 10
      ≤ 2 / 5 * (1 - lower / upper) * (5 / 2) := by gcongr
    _ = 1 - lower / upper := by ring
    _ ≤ Real.log (upper / lower) := hlog

/-- One logarithm is not farther above another than the part by which its number is larger. -/
theorem logb_sub_logb_le {lower upper : ℝ} (hlower : 0 < lower) (hle : lower ≤ upper) :
    Real.logb 10 upper - Real.logb 10 lower ≤ upper / lower - 1 := by
  have hratio := div_pos (hlower.trans_le hle) hlower
  have hten : 1 ≤ Real.log 10 := by
    have htwo := Real.log_two_gt_d9
    have hpower : Real.log ((2 : ℝ) ^ 3) ≤ Real.log 10 :=
      Real.log_le_log (by norm_num) (by norm_num)
    rw [Real.log_pow] at hpower
    norm_num at hpower
    linarith
  have hnonneg : 0 ≤ upper / lower - 1 := sub_nonneg.mpr ((one_le_div hlower).mpr hle)
  rw [← Real.logb_div (hlower.trans_le hle).ne' hlower.ne', Real.logb,
    div_le_iff₀ (zero_lt_one.trans_le hten)]
  exact (Real.log_le_sub_one_of_pos hratio).trans (le_mul_of_one_le_right hnonneg hten)

namespace Logarithm

/-- The spacing of doubles around a logarithm between eight and sixteen, or above.  Around smaller
ones it is finer. -/
noncomputable def spacing (logarithm : ℝ) : ℝ :=
  if logarithm < 16 then 1 / 2 ^ 49 else 1 / 2 ^ 48

/-- What is known of the logarithm of a system, for numbers up to the range of 64 bits. -/
structure Accurate [Logarithm] : Prop where
  /-- The result is finite, and two units in the last place away at most. -/
  near : ∀ {number : Binary64} {value : ℚ}, number.toRat? = some value → 1 ≤ value →
    value ≤ 2 ^ 64 → ∃ result : ℚ, (log10 number).toRat? = some result ∧
      |(result : ℝ) - Real.logb 10 value| ≤ 2 * spacing (Real.logb 10 value)
  /-- The logarithms of powers of ten are exact. -/
  exact : ∀ {number : Binary64} {exponent : ℕ}, exponent ≤ 22 →
    number.toRat? = some (10 ^ exponent) → (log10 number).toRat? = some (exponent : ℚ)

/-- A larger number does not have a smaller logarithm. -/
def Increasing [Logarithm] : Prop :=
  ∀ {first second : Binary64} {value value' result result' : ℚ}, first.toRat? = some value →
    second.toRat? = some value' → 1 ≤ value → value ≤ value' → value' ≤ 2 ^ 64 →
    (log10 first).toRat? = some result → (log10 second).toRat? = some result' → result ≤ result'

theorem spacing_le (logarithm : ℝ) : 2 * spacing logarithm ≤ 1 / 2 ^ 47 := by
  unfold spacing
  split <;> norm_num

theorem spacing_of_lt {logarithm : ℝ} (hless : logarithm < 16) :
    2 * spacing logarithm = 1 / 2 ^ 48 := by
  rw [spacing, if_pos hless]
  norm_num

end Logarithm

/-! ## A logarithm on a grid -/

namespace Logarithm

/-- The units in a step of `2 ^ -48`. -/
def stepUnits : ℕ := 2 ^ (1026 : ℕ)

/-- The number of steps that come nearest to the logarithm of a number. -/
noncomputable def steps (value : ℚ) : ℤ :=
  round (Real.logb 10 value * 2 ^ 48)

/-- The logarithm rounded to a whole number of steps. -/
noncomputable def rounded : Binary64 → Binary64
  | .infinite false => .infinite false
  | .finite negative magnitude =>
    if magnitude.units = 0 then .infinite true
    else if negative then .quietNan
    else
      let steps := steps (magnitude.units / Binary64.one)
      .ofUnits (decide (steps < 0)) (steps.natAbs * stepUnits) 1
  | _ => .quietNan

/-- The system that rounds to a whole number of steps. -/
@[reducible]
noncomputable def grid : Logarithm :=
  ⟨rounded⟩

theorem stepUnits_mul : stepUnits * 2 ^ (48 : ℕ) = Binary64.one := by
  unfold stepUnits Binary64.one
  exact (Binary64.two_pow_of_eq_add 1074 1026 48 rfl).symm

theorem toRat?_ofUnits_steps {count : ℤ} (hnonneg : 0 ≤ count) (hsmall : count ≤ 2 ^ 53) :
    (Binary64.ofUnits (decide (count < 0)) (count.natAbs * stepUnits) 1).toRat? =
      some (count / 2 ^ 48 : ℚ) := by
  obtain ⟨count, rfl⟩ := Int.eq_ofNat_of_zero_le hnonneg
  have hsmall' : count ≤ 2 ^ Binary64.precision := by exact_mod_cast hsmall
  have honGrid : Binary64.OnGrid (count * stepUnits) := by
    unfold stepUnits
    exact Binary64.onGrid_mul_two_pow hsmall' 1026
  have hrange : count * stepUnits < Binary64.rangeLimit := by
    have hlarge : 2 ^ (5 : ℕ) * Binary64.one ≤ Binary64.largest :=
      Binary64.mul_one_le_largest (by decide)
    have hlimit := Binary64.largest_add_spacing
    have hpos := Binary64.halfSpacing_pos
    have hle : count * stepUnits ≤ 2 ^ (53 : ℕ) * stepUnits := Nat.mul_le_mul_right _ hsmall'
    rw [← stepUnits_mul] at hlarge
    omega
  have hsteps : (stepUnits : ℚ) ≠ 0 := by
    exact_mod_cast (Nat.pos_of_mul_pos_right (stepUnits_mul ▸ Binary64.one_pos)).ne'
  rw [decide_eq_false hnonneg.not_gt, Int.natAbs_natCast,
    Binary64.ofUnits_of_onGrid false honGrid hrange, Binary64.toRat?_finite, Binary64.signed,
    if_neg Bool.false_ne_true, Option.some.injEq, ← stepUnits_mul, Nat.cast_mul, Nat.cast_mul,
    mul_comm (count : ℚ), mul_div_mul_left _ _ hsteps, Nat.cast_pow, Nat.cast_ofNat,
    Int.cast_natCast]

theorem log10_grid {number : Binary64} {value : ℚ} (hvalue : number.toRat? = some value)
    (hone : 1 ≤ value) (hnonneg : 0 ≤ steps value) (hsteps : steps value ≤ 2 ^ 53) :
    (grid.log10 number).toRat? = some (steps value / 2 ^ 48 : ℚ) := by
  obtain ⟨negative, magnitude, rfl, rfl⟩ := Binary64.exists_of_toRat?_eq_some hvalue
  cases negative with
  | true =>
      have hnonpos : Binary64.signed true (magnitude.units / Binary64.one) ≤ 0 :=
        neg_nonpos_of_nonneg (Binary64.units_div_nonneg _)
      linarith
  | false =>
      have hnonzero : magnitude.units ≠ 0 := by
        intro hzero
        rw [hzero, Nat.cast_zero, zero_div] at hone
        norm_num [Binary64.signed] at hone
      change (rounded (.finite false magnitude)).toRat? = _
      rw [rounded, if_neg hnonzero, if_neg Bool.false_ne_true]
      exact toRat?_ofUnits_steps hnonneg hsteps

theorem steps_mem {value : ℚ} (hone : 1 ≤ value) (hlimit : value ≤ 2 ^ 64) :
    0 ≤ steps value ∧ steps value ≤ 2 ^ 53 := by
  have hone' : (1 : ℝ) ≤ value := by exact_mod_cast hone
  have hlimit' : (value : ℝ) ≤ 10 ^ 20 := by
    have hcast : (value : ℝ) ≤ 2 ^ 64 := by exact_mod_cast hlimit
    linarith
  have hnonneg : 0 ≤ Real.logb 10 value := Real.logb_nonneg (by norm_num) hone'
  have hupper : Real.logb 10 value ≤ 20 := by
    have hle := Real.logb_le_logb_of_le (b := 10) (by norm_num) (zero_lt_one.trans_le hone') hlimit'
    rw [logb_ten_pow] at hle
    exact_mod_cast hle
  unfold steps
  rw [round_eq]
  constructor
  · exact Int.floor_nonneg.mpr (by positivity)
  · have hfloor := Int.floor_le (Real.logb 10 value * 2 ^ 48 + 1 / 2)
    have hless : (⌊Real.logb 10 value * 2 ^ 48 + 1 / 2⌋ : ℝ) ≤ 2 ^ 53 := by
      norm_num at hfloor ⊢
      linarith
    exact_mod_cast hless

theorem grid_accurate : @Accurate grid := by
  apply @Accurate.mk grid
  case near =>
    intro number value hvalue hone hlimit
    obtain ⟨hnonneg, hsmall⟩ := steps_mem hone hlimit
    refine ⟨_, log10_grid hvalue hone hnonneg hsmall, ?_⟩
    have hround := abs_sub_round (Real.logb 10 value * 2 ^ 48)
    have hspacing : 1 / 2 ^ 49 ≤ 2 * spacing (Real.logb 10 value) := by
      unfold spacing
      split <;> norm_num
    refine le_trans ?_ hspacing
    have hscale : (0 : ℝ) < 2 ^ 48 := by positivity
    have hscaled : |((steps value / 2 ^ 48 : ℚ) : ℝ) - Real.logb 10 value| * 2 ^ 48 =
        |Real.logb 10 value * 2 ^ 48 - round (Real.logb 10 value * 2 ^ 48)| := by
      rw [abs_sub_comm, ← abs_of_pos hscale, ← abs_mul, abs_of_pos hscale, sub_mul]
      push_cast
      rw [div_mul_cancel₀ _ hscale.ne', steps]
    rw [← hscaled] at hround
    norm_num at hround ⊢
    linarith
  case exact =>
    intro number exponent hexponent hvalue
    have hsteps : steps (10 ^ exponent) = exponent * 2 ^ 48 := by
      have hround := round_intCast (α := ℝ) ((exponent : ℤ) * 2 ^ (48 : ℕ))
      rw [Int.cast_mul, Int.cast_natCast, Int.cast_pow, Int.cast_ofNat] at hround
      rw [steps, Rat.cast_pow, Rat.cast_ofNat, logb_ten_pow, hround]
    have hone : (1 : ℚ) ≤ 10 ^ exponent := one_le_pow₀ (by norm_num)
    have hexponent' : (exponent : ℤ) ≤ 22 := by exact_mod_cast hexponent
    rw [log10_grid hvalue hone (by rw [hsteps]; positivity) (by rw [hsteps]; norm_num; linarith),
      hsteps, Int.cast_mul, Int.cast_natCast, Int.cast_pow, Int.cast_ofNat,
      mul_div_cancel_right₀ _ (pow_ne_zero _ two_ne_zero)]

theorem grid_increasing : @Increasing grid := by
  intro first second value value' result result' hfirst hsecond hone hle hlimit hresult hresult'
  obtain ⟨hnonneg, hsmall⟩ := steps_mem hone (hle.trans hlimit)
  obtain ⟨hnonneg', hsmall'⟩ := steps_mem (hone.trans hle) hlimit
  have hresult := (log10_grid hfirst hone hnonneg hsmall).symm.trans hresult
  have hresult' := (log10_grid hsecond (hone.trans hle) hnonneg' hsmall').symm.trans hresult'
  rw [Option.some.injEq] at hresult hresult'
  have hpos : (0 : ℝ) < value := by exact_mod_cast zero_lt_one.trans_le hone
  have hle' : (value : ℝ) ≤ value' := by exact_mod_cast hle
  have hlog := Real.logb_le_logb_of_le (b := 10) (by norm_num) hpos hle'
  have hsteps : steps value ≤ steps value' := by
    rw [steps, steps, round_eq, round_eq]
    exact Int.floor_le_floor (by gcongr)
  rw [← hresult, ← hresult']
  gcongr

/-- The logarithm of the last number below `10 ^ 15` is nearest to a whole number of steps. -/
theorem steps_of_quadrillion : steps (999999999999999 : ℕ) = 15 * 2 ^ 48 := by
  have hless : Real.logb 10 (999999999999999 : ℝ) ≤ 15 := by
    have hle := Real.logb_le_logb_of_le (b := 10) (x := 999999999999999) (y := 10 ^ 15)
      (by norm_num) (by norm_num) (by norm_num)
    rw [logb_ten_pow] at hle
    exact_mod_cast hle
  have hgap : Real.logb 10 (10 ^ 15) - Real.logb 10 999999999999999 ≤
      10 ^ 15 / 999999999999999 - 1 :=
    logb_sub_logb_le (by norm_num) (by norm_num)
  rw [logb_ten_pow] at hgap
  rw [steps, round_eq, Int.floor_eq_iff]
  push_cast
  norm_num at hgap ⊢
  constructor <;> linarith

end Logarithm

/-! ## Widths -/

namespace Decimal

section Widths

variable [Logarithm]

/-- How the width of a column is computed: the last position is rounded to a double, and its
logarithm loses its fraction. -/
structure Computes (last places : ℕ) (value result : ℚ) : Prop where
  lower_last : 10 ^ places ≤ last
  last_upper : last < 10 ^ (places + 1)
  last_lt : last < 2 ^ 64
  converted : (Binary64.ofInt last).toRat? = some value
  nearest : ∀ {other : ℕ}, Binary64.OnGrid (other * Binary64.one) →
    |value - last| ≤ |(other : ℚ) - last|
  close : |value - last| ≤ last / 2 ^ 53
  lower : 10 ^ places ≤ value
  upper : value ≤ 10 ^ (places + 1)
  value_le : value ≤ 2 ^ 64
  computed : (Logarithm.log10 (.ofInt last)).toRat? = some result
  near : |(result : ℝ) - Real.logb 10 value| ≤ 2 * Logarithm.spacing (Real.logb 10 value)

variable {last places : ℕ} {value result : ℚ}

/-- The logarithm lies between those of the powers of ten around it. -/
theorem Computes.logb_mem (hcomputes : Computes last places value result) :
    (places : ℝ) ≤ Real.logb 10 value ∧ Real.logb 10 value ≤ places + 1 := by
  have hlower : (10 : ℝ) ^ places ≤ value := by exact_mod_cast hcomputes.lower
  have hupper : (value : ℝ) ≤ 10 ^ (places + 1) := by exact_mod_cast hcomputes.upper
  have hpos : (0 : ℝ) < 10 ^ places := by positivity
  constructor
  · rw [← logb_ten_pow]
    exact Real.logb_le_logb_of_le (by norm_num) hpos hlower
  · rw [← Nat.cast_add_one, ← logb_ten_pow]
    exact Real.logb_le_logb_of_le (by norm_num) (hpos.trans_le hlower) hupper

omit [Logarithm] in
theorem lt_of_ten_pow_le (hlast : last < 2 ^ (64 : ℕ)) (hlower : 10 ^ places ≤ last) :
    places < 20 := by
  have hlimit : last < 10 ^ 20 := hlast.trans (by decide)
  exact (Nat.pow_lt_pow_iff_right (by decide)).mp (hlower.trans_lt hlimit)

theorem exists_computes (haccurate : Logarithm.Accurate) (hlast : last < 2 ^ (64 : ℕ))
    (hlower : 10 ^ places ≤ last) (hupper : last < 10 ^ (places + 1)) :
    ∃ value result, Computes last places value result := by
  obtain ⟨value, hvalue, hclose, hnearest⟩ := Binary64.exists_toRat?_ofInt hlast
  have hpositive : 0 < last := (Nat.pow_pos (by decide)).trans_le hlower
  have hplaces := lt_of_ten_pow_le hlast hlower
  have hlower' : (10 ^ places : ℚ) ≤ value := by
    have hgrid := hnearest (Binary64.onGrid_ten_pow (hplaces.le.trans (by decide)))
    have hle : ((10 ^ places : ℕ) : ℚ) ≤ last := by exact_mod_cast hlower
    exact_mod_cast Binary64.le_of_nearest hle hgrid
  have hupper' : value ≤ (10 ^ (places + 1) : ℚ) := by
    have hgrid := hnearest (Binary64.onGrid_ten_pow (hplaces.trans (by decide) : places + 1 ≤ 22))
    have hle : (last : ℚ) ≤ (10 ^ (places + 1) : ℕ) := by exact_mod_cast hupper.le
    exact_mod_cast Binary64.ge_of_nearest hle hgrid
  have hlimit : value ≤ 2 ^ 64 := by
    have hgrid := hnearest (Binary64.onGrid_mul_one (Nat.one_le_two_pow) 64)
    have hle : (last : ℚ) ≤ (1 * 2 ^ 64 : ℕ) := by exact_mod_cast hlast.le
    have hlimit := Binary64.ge_of_nearest hle hgrid
    norm_num at hlimit ⊢
    exact hlimit
  have hone : (1 : ℚ) ≤ value := (one_le_pow₀ (by norm_num)).trans hlower'
  obtain ⟨result, hresult, hnear⟩ := haccurate.near hvalue hone hlimit
  exact ⟨value, result, hlower, hupper, hlast, hvalue, hnearest, hclose hpositive.ne', hlower',
    hupper', hlimit, hresult, hnear⟩

/-- The computed logarithm is between those of the powers of ten, or very near to them. -/
theorem Computes.result_mem (hcomputes : Computes last places value result) :
    (places : ℝ) - 1 / 2 ^ 47 ≤ result ∧ (result : ℝ) ≤ places + 1 + 1 / 2 ^ 47 := by
  obtain ⟨hlower, hupper⟩ := hcomputes.logb_mem
  obtain ⟨hbelow, habove⟩ := abs_le.mp (hcomputes.near.trans (Logarithm.spacing_le _))
  constructor <;> linarith

theorem Computes.positive (hcomputes : Computes last places value result) : 0 < last :=
  (Nat.pow_pos (by decide)).trans_le hcomputes.lower_last

theorem Computes.places_lt (hcomputes : Computes last places value result) : places < 20 :=
  lt_of_ten_pow_le hcomputes.last_lt hcomputes.lower_last

theorem Computes.width_eq (hcomputes : Computes last places value result) :
    indexWidth (last + 1) = ⌊result⌋₊ + 1 := by
  have hcount : ¬last + 1 ≤ 1 := by
    have hpositive := hcomputes.positive
    omega
  have hsmall : result < 2 ^ (53 : ℕ) := by
    have hplaces : (places : ℝ) ≤ 20 := by exact_mod_cast hcomputes.places_lt.le
    have hless : (result : ℝ) < 2 ^ (53 : ℕ) := by
      refine hcomputes.result_mem.2.trans_lt ?_
      norm_num
      linarith
    exact_mod_cast hless
  rw [indexWidth, if_neg hcount, Nat.add_sub_cancel, Binary64.toNat_floor hcomputes.computed hsmall]

/-- The width is that of a number of `places + 1` digits, if the logarithm is found between the
right powers of ten. -/
theorem Computes.width_eq_of_between (hcomputes : Computes last places value result)
    (hlower : (places : ℝ) ≤ result) (hupper : (result : ℝ) < places + 1) :
    indexWidth (last + 1) = places + 1 := by
  rw [hcomputes.width_eq, add_left_inj]
  exact Nat.floor_eq_on_Ico _ _ ⟨by exact_mod_cast hlower, by exact_mod_cast hupper⟩

/-- The width is never more than a place away from the number of digits. -/
theorem Computes.width_within_one (hcomputes : Computes last places value result) :
    places ≤ indexWidth (last + 1) ∧ indexWidth (last + 1) ≤ places + 2 := by
  obtain ⟨hlower, hupper⟩ := hcomputes.result_mem
  rw [hcomputes.width_eq]
  constructor
  · have hfloor := Nat.lt_floor_add_one result
    have hless : (places : ℝ) < (⌊result⌋₊ + 1 + 1 : ℕ) := by
      have hfloor' : (result : ℝ) < ⌊result⌋₊ + 1 := by exact_mod_cast hfloor
      push_cast
      norm_num at hlower
      linarith
    have hless' : places < ⌊result⌋₊ + 1 + 1 := by exact_mod_cast hless
    omega
  · have hfloor : ⌊result⌋₊ < places + 2 := by
      rw [Nat.floor_lt' (by omega)]
      have hless : (result : ℝ) < places + 2 := by
        norm_num at hupper
        linarith
      exact_mod_cast hless
    omega

/-- A number that is apart from the power of ten below it has a logarithm apart from the exponent,
and likewise above. -/
theorem Computes.width_of_gap (hcomputes : Computes last places value result) (gap : ℝ)
    (hspacing : 2 * Logarithm.spacing (Real.logb 10 value) < 2 / 5 * gap)
    (hlower : (places : ℝ) ≤ result ∨ gap ≤ 1 - 10 ^ places / (value : ℝ))
    (hupper : gap ≤ 1 - (value : ℝ) / 10 ^ (places + 1)) :
    indexWidth (last + 1) = places + 1 := by
  have hpower : (0 : ℝ) < 10 ^ places := by positivity
  have hbelow : (10 : ℝ) ^ places ≤ value := by exact_mod_cast hcomputes.lower
  have habove : (value : ℝ) ≤ 10 ^ (places + 1) := by exact_mod_cast hcomputes.upper
  obtain ⟨hleast, hgreatest⟩ := abs_le.mp hcomputes.near
  apply hcomputes.width_eq_of_between
  · refine hlower.elim id fun hgap => ?_
    have hlog := le_logb_sub_logb hpower hbelow
    rw [logb_ten_pow] at hlog
    linarith
  · have hlog := le_logb_sub_logb (hpower.trans_le hbelow) habove
    rw [logb_ten_pow, Nat.cast_add_one] at hlog
    linarith

/-- Up to `10 ^ 14` there is a gap around every power of ten that no error bridges. -/
theorem Computes.width_of_small (haccurate : Logarithm.Accurate)
    (hcomputes : Computes last places value result) (hsmall : last < 10 ^ 14) :
    indexWidth (last + 1) = places + 1 := by
  have hplaces : places < 14 :=
    (Nat.pow_lt_pow_iff_right (by decide)).mp (hcomputes.lower_last.trans_lt hsmall)
  have hvalue : value = last := by
    have hgrid := Binary64.onGrid_of_le (hsmall.le.trans (by decide))
    have hexact := Binary64.toRat?_ofInt_of_onGrid hcomputes.last_lt hgrid
    exact Option.some.inj (hcomputes.converted.symm.trans hexact)
  subst hvalue
  have hlogb : Real.logb 10 (last : ℚ) < 16 := by
    have hle : (places : ℝ) ≤ 13 := by exact_mod_cast Nat.le_of_lt_succ hplaces
    linarith [hcomputes.logb_mem.2]
  have hpositive : (0 : ℝ) < last := by exact_mod_cast hcomputes.positive
  apply hcomputes.width_of_gap (1 / 10 ^ 14)
  · rw [Logarithm.spacing_of_lt hlogb]
    norm_num
  · rcases hcomputes.lower_last.eq_or_lt with hpower | hmore
    · have hexact := haccurate.exact (hplaces.le.trans (by decide))
        (hcomputes.converted.trans (by rw [← hpower]; norm_cast))
      rw [hcomputes.computed, Option.some.injEq] at hexact
      rw [hexact]
      exact .inl (by norm_cast)
    · right
      have hmore' : (10 : ℝ) ^ places + 1 ≤ last := by exact_mod_cast hmore
      have hsmall' : (last : ℝ) ≤ 10 ^ 14 := by exact_mod_cast hsmall.le
      rw [Rat.cast_natCast, le_sub_comm, div_le_iff₀ hpositive]
      have hportion : 1 / 10 ^ 14 * (last : ℝ) ≤ 1 := by
        rw [div_mul_eq_mul_div, one_mul]
        exact (div_le_one (by positivity)).mpr hsmall'
      linarith
  · have hless : (last : ℝ) + 1 ≤ 10 ^ (places + 1) := by exact_mod_cast hcomputes.last_upper
    have hpower : (10 : ℝ) ^ (places + 1) ≤ 10 ^ 14 :=
      pow_le_pow_right₀ (by norm_num) hplaces
    rw [Rat.cast_natCast, le_sub_comm, div_le_iff₀ (by positivity)]
    have hportion : 1 / 10 ^ 14 * (10 : ℝ) ^ (places + 1) ≤ 1 := by
      rw [div_mul_eq_mul_div, one_mul]
      exact (div_le_one (by positivity)).mpr hpower
    linarith

/-- A number is at least `2 ^ -44` of itself away from every power of ten. -/
def ApartFromPowers (last : ℕ) : Prop :=
  ∀ exponent : ℕ, (last : ℚ) / 2 ^ 44 ≤ |(last : ℚ) - 10 ^ exponent|

theorem Computes.width_of_apart (hcomputes : Computes last places value result)
    (hapart : ApartFromPowers last) : indexWidth (last + 1) = places + 1 := by
  have hpositive : (0 : ℚ) < last := by exact_mod_cast hcomputes.positive
  have hlower : (10 ^ places : ℚ) ≤ last := by exact_mod_cast hcomputes.lower_last
  have hupper : (last : ℚ) ≤ 10 ^ (places + 1) := by exact_mod_cast hcomputes.last_upper.le
  have hbelow := hapart places
  have habove := hapart (places + 1)
  rw [abs_of_nonneg (sub_nonneg.mpr hlower)] at hbelow
  rw [abs_of_nonpos (sub_nonpos.mpr hupper)] at habove
  obtain ⟨hleast, hgreatest⟩ := abs_le.mp hcomputes.close
  have hvalue : (0 : ℚ) < value := by
    norm_num at hleast
    linarith
  apply hcomputes.width_of_gap (1 / 2 ^ 45)
  · refine (Logarithm.spacing_le _).trans_lt ?_
    norm_num
  · right
    have hgap : (1 / 2 ^ 45 : ℚ) ≤ 1 - 10 ^ places / value := by
      rw [le_sub_comm, div_le_iff₀ hvalue]
      norm_num at hbelow hleast ⊢
      linarith
    have hreal := (Rat.cast_le (K := ℝ)).mpr hgap
    push_cast at hreal
    exact hreal
  · have hgap : (1 / 2 ^ 45 : ℚ) ≤ 1 - value / 10 ^ (places + 1) := by
      rw [le_sub_comm, div_le_iff₀ (by positivity)]
      norm_num at habove hgreatest ⊢
      linarith
    have hreal := (Rat.cast_le (K := ℝ)).mpr hgap
    push_cast at hreal
    exact hreal

/-- Where the conversion arrives at a power of ten, so does the width. -/
theorem Computes.width_of_power (haccurate : Logarithm.Accurate)
    (hcomputes : Computes last places value result) {exponent : ℕ}
    (hvalue : value = 10 ^ exponent) :
    indexWidth (last + 1) = exponent + 1 := by
  have hexponent : exponent ≤ places + 1 := by
    have hle := hcomputes.upper
    rw [hvalue] at hle
    exact (pow_le_pow_iff_right₀ (by norm_num)).mp hle
  have hplaces := hcomputes.places_lt
  have hexact := haccurate.exact (by omega) (hvalue ▸ hcomputes.converted)
  rw [hcomputes.computed, Option.some.injEq] at hexact
  rw [hcomputes.width_eq, hexact, Nat.floor_natCast]

/-- If logarithms do not fall, that of a number is not below that of the power of ten below it. -/
theorem Computes.le_width (haccurate : Logarithm.Accurate) (hincreasing : Logarithm.Increasing)
    (hcomputes : Computes last places value result) : places + 1 ≤ indexWidth (last + 1) := by
  have hplaces : places ≤ 22 := hcomputes.places_lt.le.trans (by decide)
  have hpower : (Binary64.ofInt (10 ^ places : ℕ)).toRat? = some ((10 : ℚ) ^ places) := by
    rw [Binary64.toRat?_ofInt_of_onGrid (hcomputes.lower_last.trans_lt hcomputes.last_lt)
      (Binary64.onGrid_ten_pow hplaces), Nat.cast_pow, Nat.cast_ofNat]
  have hexact := haccurate.exact hplaces hpower
  have hle := hincreasing hpower hcomputes.converted (one_le_pow₀ (by norm_num)) hcomputes.lower
    hcomputes.value_le hexact hcomputes.computed
  rw [hcomputes.width_eq]
  exact Nat.succ_le_succ (Nat.le_floor hle)

/-! ## Columns -/

/-- Whether the column for a count is right: as wide as the last position in it, so that every
position fills it and no narrower one would do. -/
structure ColumnFits (count : ℕ) : Prop where
  width_eq : indexWidth count = (digits (count - 1)).length
  filled : ∀ position < count, (padded (indexWidth count) position).length = indexWidth count
  narrowest : 0 < count → ∀ narrower < indexWidth count,
    ∃ position < count, (padded narrower position).length ≠ narrower

theorem columnFits_of_width_eq {count : ℕ}
    (hwidth : indexWidth count = (digits (count - 1)).length) : ColumnFits count where
  width_eq := hwidth
  filled := by
    intro position hposition
    have hcount := Nat.zero_lt_of_lt hposition
    exact (forall_length_padded_iff hcount).mpr hwidth.ge position hposition
  narrowest := by
    intro hcount narrower hnarrower
    rw [hwidth, ← Nat.not_le, ← forall_length_padded_iff hcount] at hnarrower
    simpa only [not_forall, exists_prop] using hnarrower

/-- What the width of a column comes to. -/
structure WidthOf (count : ℕ) : Prop where
  /-- The width is right for up to `10 ^ 14` positions, and for any number of them if the last one
  is not too near to a power of ten. -/
  fits : count ≤ 10 ^ 14 ∨ ApartFromPowers (count - 1) → ColumnFits count
  /-- Elsewhere it can be a place too wide or too narrow, but not more. -/
  within_one : indexWidth count ≤ (digits (count - 1)).length + 1 ∧
    (digits (count - 1)).length ≤ indexWidth count + 1
  /-- It is too wide where the conversion of the last position arrives at the power of ten above. -/
  too_wide : ∀ exponent, count - 1 < 10 ^ exponent →
    (Binary64.ofInt (count - 1 : ℕ)).toRat? = some (10 ^ exponent) →
    indexWidth count = exponent + 1 ∧ (digits (count - 1)).length ≤ exponent
  /-- It is never too narrow if logarithms do not fall. -/
  filled : Logarithm.Increasing →
    ∀ position < count, (padded (indexWidth count) position).length = indexWidth count

theorem columnFits_of_few {count : ℕ} (hcount : count ≤ 1) : ColumnFits count := by
  apply columnFits_of_width_eq
  have hlast : count - 1 = 0 := Nat.sub_eq_zero_of_le hcount
  rw [indexWidth, if_pos hcount, hlast]
  rfl

/-- **The width of a column is the number of digits of the last position in it**, as far as the
logarithm can tell. -/
theorem indexWidth_fits (haccurate : Logarithm.Accurate) (count : UInt64) :
    WidthOf count.toNat := by
  have hlimit : count.toNat < 2 ^ 64 := count.toNat_lt
  generalize count.toNat = count at hlimit
  by_cases hfew : count ≤ 1
  · have hfits := columnFits_of_few hfew
    have hwidth := hfits.width_eq
    refine ⟨fun _ => hfits, by omega, ?_, fun _ => hfits.filled⟩
    intro exponent _ hvalue
    have hzero := Binary64.toRat?_ofInt_of_onGrid (Nat.two_pow_pos 64)
      ((Nat.zero_mul _).symm ▸ Nat.dvd_zero _)
    rw [Nat.sub_eq_zero_of_le hfew, hzero, Nat.cast_zero, Option.some.injEq] at hvalue
    exact absurd hvalue.symm (pow_ne_zero _ (by norm_num))
  · obtain ⟨last, rfl⟩ := Nat.exists_eq_add_of_le' (Nat.lt_of_not_le hfew).le
    have hlast : last + 1 - 1 = last := Nat.add_sub_cancel ..
    have hpositive : 0 < last := by omega
    obtain ⟨places, hlength, hlower, hupper⟩ := length_digits_bounds hpositive
    obtain ⟨value, result, hcomputes⟩ :=
      exists_computes haccurate (by omega) hlower hupper
    have hwithin := hcomputes.width_within_one
    constructor
    case fits =>
      intro hcount
      rw [hlast] at hcount
      apply columnFits_of_width_eq
      rw [hlast, hlength]
      rcases hcount with hsmall | hapart
      · exact hcomputes.width_of_small haccurate hsmall
      · exact hcomputes.width_of_apart hapart
    case within_one =>
      rw [hlast, hlength]
      omega
    case too_wide =>
      intro exponent hless hvalue
      rw [hlast] at hless hvalue ⊢
      rw [hcomputes.converted, Option.some.injEq] at hvalue
      refine ⟨hcomputes.width_of_power haccurate hvalue, ?_⟩
      rw [hlength]
      exact (Nat.pow_lt_pow_iff_right (by decide)).mp (hlower.trans_lt hless)
    case filled =>
      intro hincreasing position hposition
      have hwidth := hcomputes.le_width haccurate hincreasing
      refine (forall_length_padded_iff (Nat.succ_pos last)).mpr ?_ position hposition
      rwa [hlast, hlength]

end Widths

/-- The last position below `10 ^ 16` is converted to `10 ^ 16`. -/
theorem indexWidth_fits_of_ten_quadrillion :
    @indexWidth Logarithm.grid 10000000000000000 = 17 ∧ (digits 9999999999999999).length = 16 ∧
      ∀ position < 10000000000000000,
        (padded (@indexWidth Logarithm.grid 10000000000000000) position).length = 17 := by
  let := Logarithm.grid
  have hwidth := indexWidth_fits Logarithm.grid_accurate 10000000000000000
  have hvalue : (Binary64.ofInt (9999999999999999 : ℕ)).toRat? = some (10 ^ 16) := by
    have hwhole : (Binary64.ofInt (9999999999999999 : ℕ)).toInt? = some 10000000000000000 := by
      decide +kernel
    rw [Binary64.toInt?_eq_some_iff.mp hwhole]
    norm_num
  obtain ⟨hwide, -⟩ := hwidth.too_wide 16 (by decide) hvalue
  have hfilled := hwidth.filled Logarithm.grid_increasing
  change @indexWidth Logarithm.grid 10000000000000000 = 17 at hwide
  refine ⟨hwide, by decide, fun position hposition => ?_⟩
  exact (hfilled position hposition).trans hwide

/-- The largest position of fifteen digits gets a column of sixteen places. -/
theorem indexWidth_of_quadrillion :
    @indexWidth Logarithm.grid 1000000000000000 = 16 ∧
      ∀ position < 1000000000000000, (padded 15 position).length = 15 := by
  refine ⟨?_, (forall_length_padded_iff (by decide)).mpr (by decide)⟩
  have hvalue :
      (Binary64.ofInt (999999999999999 : ℕ)).toRat? = some ((999999999999999 : ℕ) : ℚ) := by
    exact Binary64.toRat?_ofInt_of_onGrid (by decide) (Binary64.onGrid_of_le (by decide))
  have hsteps := Logarithm.steps_of_quadrillion
  have hresult := Logarithm.log10_grid hvalue (by norm_num) (by rw [hsteps]; norm_num)
    (by rw [hsteps]; norm_num)
  have hfifteen : ((Logarithm.steps (999999999999999 : ℕ) : ℚ) / 2 ^ 48) = (15 : ℕ) := by
    rw [hsteps]
    norm_num
  rw [hfifteen] at hresult
  have hfloor := Binary64.toNat_floor hresult (by norm_num)
  rw [Nat.floor_natCast] at hfloor
  have hmany : ¬1000000000000000 ≤ 1 := by decide
  unfold indexWidth
  rw [if_neg hmany]
  exact congrArg (· + 1) hfloor

end Decimal

end LetterMachine
