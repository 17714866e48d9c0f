import LetterMachine.Binary64.SixDigits
import LetterMachine.Proofs.DecimalRounding
import Mathlib.Algebra.Order.Field.Power
import Mathlib.Algebra.Order.Ring.Abs
import Mathlib.Data.Rat.Cast.Order
import Mathlib.Tactic.FieldSimp
import Mathlib.Tactic.Linarith
import Mathlib.Tactic.NormNum
import Mathlib.Tactic.Positivity
import Mathlib.Tactic.Ring

/-!
# Six significant digits

A positive number lies in a decade, between a power of ten and the next one.  Rounding it to six
significant digits is rounding it to the nearest multiple of the power of ten five places below, and
if that reaches the end of the decade, the six digits belong to the next one.

A number that is printed without an exponent is rounded twice, the second time with a precision
taken from the first result.  `RoundsToSix.nearestEven` says that the two roundings agree: also in
the next decade, where the precision is one place less, the nearest multiple is the same number.
-/

namespace LetterMachine

/-! ## Nearest whole numbers -/

/-- The whole number nearest to a number, the even one of two that are equally near. -/
structure NearestEven (value : ℚ) (count : ℕ) : Prop where
  abs_sub_le : |value - count| ≤ 1 / 2
  even_of_eq : |value - count| = 1 / 2 → Even count

theorem NearestEven.le {value : ℚ} {count other : ℕ} (hcount : NearestEven value count)
    (hother : NearestEven value other) : count ≤ other := by
  apply Nat.le_of_not_lt
  intro hlt
  have hstep : (other : ℚ) + 1 ≤ count := by exact_mod_cast hlt
  obtain ⟨hbelow, -⟩ := abs_le.mp hcount.abs_sub_le
  obtain ⟨-, habove⟩ := abs_le.mp hother.abs_sub_le
  -- The value is half-way between neighbours, and both of them would be even.
  have hhalf : value = other + 1 / 2 := by linarith
  have hnext : (count : ℚ) = other + 1 := by linarith
  have hcount' := hcount.even_of_eq (by rw [hhalf, hnext]; norm_num)
  have hother' := hother.even_of_eq (by rw [hhalf]; norm_num)
  have hsucc : count = other + 1 := by exact_mod_cast hnext
  rw [hsucc, Nat.even_add_one] at hcount'
  exact hcount' hother'

theorem NearestEven.unique {value : ℚ} {count other : ℕ} (hcount : NearestEven value count)
    (hother : NearestEven value other) : count = other :=
  Nat.le_antisymm (hcount.le hother) (hother.le hcount)

theorem nearestEven_of_abs_sub_lt {value : ℚ} {count : ℕ} (hlt : |value - count| < 1 / 2) :
    NearestEven value count :=
  ⟨hlt.le, fun heq => absurd heq hlt.ne⟩

/-- Rounding a fraction, a half to the even neighbour, gives the nearest whole number. -/
theorem nearestEven_roundDiv (numerator : ℕ) {denominator : ℕ} (hpos : 0 < denominator) :
    NearestEven ((numerator : ℚ) / denominator) (roundDiv .toEven numerator denominator) := by
  have hdenominator : (0 : ℚ) < denominator := by exact_mod_cast hpos
  have hmod := Nat.mod_lt numerator hpos
  have hdivision : (numerator : ℚ) / denominator =
      ((numerator / denominator : ℕ) : ℚ) + ((numerator % denominator : ℕ) : ℚ) / denominator := by
    field_simp
    exact_mod_cast (Nat.div_add_mod numerator denominator).symm
  rw [hdivision, roundDiv]
  generalize numerator / denominator = below
  generalize numerator % denominator = rest at hmod
  have hnonneg : (0 : ℚ) ≤ rest / denominator := by positivity
  have hone : (rest : ℚ) / denominator < 1 := by
    rw [div_lt_one hdenominator]
    exact_mod_cast hmod
  have hless : 2 * rest < denominator ↔ (rest : ℚ) / denominator < 1 / 2 := by
    rw [div_lt_div_iff₀ hdenominator two_pos, one_mul, mul_comm]
    exact_mod_cast Iff.rfl
  have hmore : denominator < 2 * rest ↔ 1 / 2 < (rest : ℚ) / denominator := by
    rw [div_lt_div_iff₀ two_pos hdenominator, one_mul, mul_comm (rest : ℚ)]
    exact_mod_cast Iff.rfl
  generalize (rest : ℚ) / denominator = portion at *
  split_ifs with hbelow habove
  · rw [hless] at hbelow
    apply nearestEven_of_abs_sub_lt
    rwa [add_sub_cancel_left, abs_of_nonneg hnonneg]
  · rw [hmore] at habove
    apply nearestEven_of_abs_sub_lt
    rw [Nat.cast_add_one, add_sub_add_left_eq_sub, abs_of_neg (by linarith)]
    linarith
  · have hhalf : portion = 1 / 2 :=
      le_antisymm (not_lt.mp (mt hmore.mpr habove)) (not_lt.mp (mt hless.mpr hbelow))
    subst hhalf
    rcases Nat.even_or_odd below with heven | hodd
    · rw [Tie.settle, Nat.even_iff.mp heven, Nat.add_zero]
      exact ⟨by norm_num, fun _ => heven⟩
    · rw [Tie.settle, Nat.odd_iff.mp hodd]
      refine ⟨?_, fun _ => hodd.add_one⟩
      rw [Nat.cast_add_one, add_sub_add_left_eq_sub]
      norm_num

/-! ## Decades -/

namespace Decimal

theorem zpow_toNat_div_zpow_toNat (power : ℤ) :
    (10 : ℚ) ^ power.toNat / 10 ^ (-power).toNat = 10 ^ power := by
  rcases le_total 0 power with hpower | hpower
  · obtain ⟨places, rfl⟩ := Int.eq_ofNat_of_zero_le hpower
    simp
  · obtain ⟨places, hplaces⟩ := Int.eq_ofNat_of_zero_le (Int.neg_nonneg.mpr hpower)
    obtain rfl : power = -(places : ℤ) := by omega
    simp

/-- Scaling multiplies by the power of ten. -/
theorem scaled_div (numerator denominator : ℕ) (power : ℤ) :
    ((scaled numerator denominator power).1 : ℚ) / (scaled numerator denominator power).2 =
      numerator / denominator * 10 ^ power := by
  rw [← zpow_toNat_div_zpow_toNat power]
  simp only [scaled]
  push_cast
  rw [mul_div_mul_comm]

theorem length_digits_bounds {number : ℕ} (hnumber : 0 < number) :
    ∃ places, (digits number).length = places + 1 ∧ 10 ^ places ≤ number ∧
      number < 10 ^ (places + 1) := by
  obtain ⟨places, hplaces⟩ : ∃ places, (digits number).length = places + 1 :=
    Nat.exists_eq_succ_of_ne_zero (Nat.ne_of_gt Nat.length_toDigits_pos)
  refine ⟨places, hplaces, pow_le_of_length_digits (Nat.ne_of_gt hnumber) (by omega), ?_⟩
  rw [← hplaces]
  exact lt_pow_length_digits number

/-- The leading exponent is that of the decade. -/
theorem leadingExponent_spec {numerator denominator : ℕ} (hnumerator : 0 < numerator)
    (hdenominator : 0 < denominator) :
    (10 : ℚ) ^ leadingExponent numerator denominator ≤ numerator / denominator ∧
      (numerator : ℚ) / denominator < 10 ^ (leadingExponent numerator denominator + 1) := by
  have hpos : (0 : ℚ) < denominator := by exact_mod_cast hdenominator
  unfold leadingExponent
  split
  · rename_i hle
    obtain ⟨places, hlength, hlower, hupper⟩ :=
      length_digits_bounds (Nat.div_pos hle hdenominator)
    rw [Nat.le_div_iff_mul_le hdenominator] at hlower
    rw [Nat.div_lt_iff_lt_mul hdenominator] at hupper
    rw [hlength, Nat.cast_add_one, add_sub_cancel_right, zpow_natCast, ← Nat.cast_add_one,
      zpow_natCast, le_div_iff₀ hpos, div_lt_iff₀ hpos]
    exact ⟨by exact_mod_cast hlower, by exact_mod_cast hupper⟩
  · rename_i hlt
    have hquotient : 0 < (denominator - 1) / numerator := Nat.div_pos (by omega) hnumerator
    obtain ⟨places, hlength, hlower, hupper⟩ := length_digits_bounds hquotient
    rw [Nat.le_div_iff_mul_le hnumerator] at hlower
    rw [Nat.div_lt_iff_lt_mul hnumerator] at hupper
    have hless : 10 ^ places * numerator < denominator := by omega
    have hmore : denominator ≤ 10 ^ (places + 1) * numerator := by omega
    rw [hlength, Nat.cast_add_one, neg_add, neg_add_cancel_right, ← neg_add, ← Nat.cast_add_one,
      zpow_neg, zpow_neg, zpow_natCast, zpow_natCast]
    constructor
    · rw [inv_le_iff_one_le_mul₀ (by positivity), div_mul_eq_mul_div, one_le_div hpos, mul_comm]
      exact_mod_cast hmore
    · rw [lt_inv_comm₀ (by positivity) (by positivity), inv_div, lt_div_iff₀ (by positivity)]
      exact_mod_cast hless

end Decimal

/-! ## Rounding to six significant digits -/

/-- `coefficient * 10 ^ (exponent - 5)` is a positive number rounded to six significant digits, a
half to the even neighbour. -/
inductive RoundsToSix (value : ℚ) : ℕ → ℤ → Prop where
  | within {coefficient : ℕ} {exponent : ℤ} (hlower : 10 ^ exponent ≤ value)
      (hupper : value < 10 ^ (exponent + 1))
      (hnearest : NearestEven (value * 10 ^ (5 - exponent)) coefficient)
      (hsix : coefficient < 1000000) : RoundsToSix value coefficient exponent
  /-- The nearest multiple is the power of ten that begins the next decade. -/
  | carried {exponent : ℤ} (hlower : 10 ^ exponent ≤ value) (hupper : value < 10 ^ (exponent + 1))
      (hnearest : NearestEven (value * 10 ^ (5 - exponent)) 1000000) :
      RoundsToSix value 100000 (exponent + 1)

namespace RoundsToSix

variable {value : ℚ} {coefficient : ℕ} {exponent : ℤ}

/-- In units of the sixth digit, a number of the decade is between its least and its greatest
value. -/
theorem scaled_bounds (hlower : 10 ^ exponent ≤ value) (hupper : value < 10 ^ (exponent + 1)) :
    100000 ≤ value * 10 ^ (5 - exponent) ∧ value * 10 ^ (5 - exponent) < 1000000 := by
  have hscale : (0 : ℚ) < 10 ^ (5 - exponent) := by positivity
  have hten : (10 : ℚ) ≠ 0 := by norm_num
  have hleast : (10 : ℚ) ^ exponent * 10 ^ (5 - exponent) = 100000 := by
    rw [← zpow_add₀ hten, add_sub_cancel]
    norm_num
  have hgreatest : (10 : ℚ) ^ (exponent + 1) * 10 ^ (5 - exponent) = 1000000 := by
    rw [← zpow_add₀ hten, show exponent + 1 + (5 - exponent) = 6 by ring]
    norm_num
  rw [← hleast, ← hgreatest]
  exact ⟨mul_le_mul_of_nonneg_right hlower hscale.le, mul_lt_mul_of_pos_right hupper hscale⟩

theorem bounds (hrounds : RoundsToSix value coefficient exponent) :
    100000 ≤ coefficient ∧ coefficient < 1000000 := by
  cases hrounds with
  | within hlower hupper hnearest hsix =>
      refine ⟨?_, hsix⟩
      obtain ⟨hleast, -⟩ := scaled_bounds hlower hupper
      obtain ⟨-, habove⟩ := abs_le.mp hnearest.abs_sub_le
      have hlt : (99999 : ℚ) < coefficient := by linarith
      have hlt' : 99999 < coefficient := by exact_mod_cast hlt
      exact hlt'
  | carried => exact ⟨le_rfl, by decide⟩

/-- The decade of the rounded number gives the same nearest number as that of the number itself. -/
theorem nearestEven (hrounds : RoundsToSix value coefficient exponent) :
    NearestEven (value * 10 ^ (5 - exponent)) coefficient := by
  cases hrounds with
  | within hlower hupper hnearest hsix => exact hnearest
  | @carried exponent hlower hupper hnearest =>
      obtain ⟨-, hgreatest⟩ := scaled_bounds hlower hupper
      obtain ⟨hbelow, -⟩ := abs_le.mp hnearest.abs_sub_le
      have hscale : (10 : ℚ) ^ (5 - exponent) = 10 * 10 ^ (5 - (exponent + 1)) := by
        rw [← zpow_one_add₀ (by norm_num)]
        congr 1
        ring
      rw [hscale] at hgreatest hbelow
      push_cast at hbelow
      apply nearestEven_of_abs_sub_lt
      rw [abs_lt]
      push_cast
      constructor <;> linarith

theorem exponent_unique {first second : ℤ} (hfirst : 10 ^ first ≤ value)
    (hfirst' : value < 10 ^ (first + 1)) (hsecond : 10 ^ second ≤ value)
    (hsecond' : value < 10 ^ (second + 1)) : first = second := by
  have hten : (1 : ℚ) < 10 := by norm_num
  have hle := (zpow_lt_zpow_iff_right₀ hten).mp (hfirst.trans_lt hsecond')
  have hge := (zpow_lt_zpow_iff_right₀ hten).mp (hsecond.trans_lt hfirst')
  omega

/-- A number has one rounding to six significant digits. -/
theorem unique {other : ℕ} {exponent' : ℤ} (hrounds : RoundsToSix value coefficient exponent)
    (hother : RoundsToSix value other exponent') : coefficient = other ∧ exponent = exponent' := by
  cases hrounds with
  | within hlower hupper hnearest hsix =>
      cases hother with
      | within hlower' hupper' hnearest' =>
          obtain rfl := exponent_unique hlower hupper hlower' hupper'
          exact ⟨hnearest.unique hnearest', rfl⟩
      | carried hlower' hupper' hnearest' =>
          obtain rfl := exponent_unique hlower hupper hlower' hupper'
          exact absurd (hnearest.unique hnearest') (Nat.ne_of_lt hsix)
  | carried hlower hupper hnearest =>
      cases hother with
      | within hlower' hupper' hnearest' hsix =>
          obtain rfl := exponent_unique hlower hupper hlower' hupper'
          exact absurd (hnearest'.unique hnearest) (Nat.ne_of_lt hsix)
      | carried hlower' hupper' =>
          obtain rfl := exponent_unique hlower hupper hlower' hupper'
          exact ⟨rfl, rfl⟩

end RoundsToSix

namespace Decimal

/-- The digits and the exponent of a fraction in scientific notation are those of its rounding to
six significant digits. -/
theorem exists_rounded {numerator denominator : ℕ} (hnumerator : 0 < numerator)
    (hdenominator : 0 < denominator) :
    ∃ coefficient exponent,
      RoundsToSix ((numerator : ℚ) / denominator) coefficient exponent ∧
        Scientific.rounded 6 numerator denominator = ⟨digits coefficient, exponent⟩ := by
  obtain ⟨hlower, hupper⟩ := leadingExponent_spec hnumerator hdenominator
  unfold Scientific.rounded
  generalize leadingExponent numerator denominator = exponent at hlower hupper
  have hvalue := scaled_div numerator denominator ((6 : ℕ) - 1 - exponent)
  have hpositive : 0 < (scaled numerator denominator ((6 : ℕ) - 1 - exponent)).2 :=
    Nat.mul_pos hdenominator (Nat.pow_pos (by decide))
  have hfive : ((6 : ℕ) - 1 - exponent : ℤ) = 5 - exponent := by norm_num
  dsimp only
  generalize scaled numerator denominator ((6 : ℕ) - 1 - exponent) = fraction at *
  obtain ⟨upper, lower⟩ := fraction
  have hnearest := nearestEven_roundDiv upper hpositive
  rw [hvalue, hfive] at hnearest
  generalize roundDiv .toEven upper lower = coefficient at hnearest
  by_cases hcarried : coefficient = 1000000
  · subst hcarried
    exact ⟨_, _, .carried hlower hupper hnearest, if_pos rfl⟩
  · refine ⟨_, _, .within hlower hupper hnearest ?_, if_neg hcarried⟩
    obtain ⟨-, hgreatest⟩ := RoundsToSix.scaled_bounds hlower hupper
    obtain ⟨hbelow, -⟩ := abs_le.mp hnearest.abs_sub_le
    have hlt : (coefficient : ℚ) < 1000001 := by linarith
    have hlt' : coefficient < 1000001 := by exact_mod_cast hlt
    omega

/-- The second rounding, to the places that the exponent leaves, gives the same digits. -/
theorem roundDiv_places {numerator denominator coefficient : ℕ} {exponent : ℤ}
    (hdenominator : 0 < denominator)
    (hrounds : RoundsToSix ((numerator : ℚ) / denominator) coefficient exponent)
    (hexponent : exponent ≤ 5) :
    roundDiv .toEven (numerator * 10 ^ (5 - exponent).toNat) denominator = coefficient := by
  have hplaces : ((5 - exponent).toNat : ℤ) = 5 - exponent := Int.toNat_of_nonneg (by omega)
  have hnearest := nearestEven_roundDiv (numerator * 10 ^ (5 - exponent).toNat) hdenominator
  have hvalue : ((numerator * 10 ^ (5 - exponent).toNat : ℕ) : ℚ) / denominator =
      numerator / denominator * 10 ^ (5 - exponent) := by
    rw [← hplaces, zpow_natCast, hplaces]
    push_cast
    ring
  rw [hvalue] at hnearest
  exact hnearest.unique hrounds.nearestEven

end Decimal

end LetterMachine
