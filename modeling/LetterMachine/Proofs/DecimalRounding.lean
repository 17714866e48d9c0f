import LetterMachine.Binary64.OfDecimal
import Mathlib.Data.Nat.Dist

/-!
# Rounding of decimal notation

The double of a number in decimal notation is found without computing the power of ten if that power
is very small or very large.  This shortcut cannot be seen: `Binary64.ofDecimal_eq_nearestDecimal`
says that the double is always what rounding the exact fraction gives.  And what rounding gives is
nearest: no other count of units on the grid is nearer to the fraction.
-/

namespace LetterMachine

theorem roundDiv_cases (tie : Tie) (numerator denominator : Nat) :
    let rounded := roundDiv tie numerator denominator
    rounded = numerator / denominator ∧ 2 * (numerator % denominator) ≤ denominator ∨
      rounded = numerator / denominator + 1 ∧ denominator ≤ 2 * (numerator % denominator) := by
  have hle := Tie.le_settle tie (numerator / denominator)
  have hge := Tie.settle_le tie (numerator / denominator)
  simp only [roundDiv]
  split
  · omega
  · split <;> omega

/-- No other natural number is nearer to a fraction than the one it is rounded to. -/
theorem dist_roundDiv_le (tie : Tie) (numerator : Nat) {denominator : Nat} (hpos : 0 < denominator)
    (quotient : Nat) :
    (denominator * roundDiv tie numerator denominator).dist numerator ≤
      (denominator * quotient).dist numerator := by
  have hdivision := Nat.div_add_mod numerator denominator
  have hmod := Nat.mod_lt numerator hpos
  have hrounded := roundDiv_cases tie numerator denominator
  dsimp only at hrounded
  generalize numerator / denominator = below at *
  have hquotient : denominator * quotient ≤ denominator * below ∨
      denominator * below + denominator ≤ denominator * quotient := by
    rcases Nat.lt_or_ge below quotient with hlt | hge
    · exact Or.inr (Nat.mul_le_mul_left denominator hlt)
    · exact Or.inl (Nat.mul_le_mul_left denominator hge)
  unfold Nat.dist
  rcases hrounded with ⟨hbelow, hhalf⟩ | ⟨habove, hhalf⟩
  · rw [hbelow]
    omega
  · rw [habove, Nat.mul_add, Nat.mul_one]
    omega

namespace Decimal

theorem lt_pow_length_digits (number : Nat) : number < 10 ^ (digits number).length :=
  (Nat.length_toDigits_le_iff (by decide) Nat.length_toDigits_pos).mp (Nat.le_refl _)

theorem pow_le_of_length_digits {number places : Nat} (hnumber : number ≠ 0)
    (hplaces : places < (digits number).length) : 10 ^ places ≤ number := by
  cases places with
  | zero => exact Nat.one_le_iff_ne_zero.mpr hnumber
  | succ places =>
      apply Nat.le_of_not_lt
      intro hlt
      have hle := (Nat.length_toDigits_le_iff (by decide) (Nat.succ_pos places)).mpr hlt
      exact absurd hplaces (Nat.not_lt_of_le hle)

theorem length_digits_eq {number places : Nat} (hlower : 10 ^ places ≤ number)
    (hupper : number < 10 ^ (places + 1)) : (digits number).length = places + 1 := by
  apply Nat.le_antisymm
  · exact (Nat.length_toDigits_le_iff (by decide) (Nat.succ_pos places)).mpr hupper
  · apply Nat.succ_le_of_lt
    apply Nat.lt_of_not_le
    intro hle
    have hless := Nat.lt_of_lt_of_le (lt_pow_length_digits number)
      (Nat.pow_le_pow_right (by decide) hle)
    exact absurd hlower (Nat.not_le_of_lt hless)

end Decimal

namespace Binary64

/-! ## The nearest count of units -/

/-- The grid is finer around a count that is off the spacing of a fraction, so that a power of two
lies between them. -/
theorem exists_onGrid_between (numerator denominator : Nat) {units : Nat} (hunits : OnGrid units)
    (hoff : ¬2 ^ gridExponent (numerator / denominator) ∣ units) :
    ∃ power, OnGrid power ∧ 2 ^ gridExponent (numerator / denominator) ∣ power ∧
      units < power ∧ power ≤ numerator / denominator := by
  have hgrid : gridExponent units < gridExponent (numerator / denominator) := by
    apply Nat.lt_of_not_le
    intro hle
    exact hoff (Nat.dvd_trans (Nat.pow_dvd_pow 2 hle) hunits)
  generalize numerator / denominator = quotient at *
  have hquotient : quotient ≠ 0 := by
    rintro rfl
    exact absurd hgrid (Nat.not_lt_of_le (Nat.zero_le _))
  have hlog : units.log2 + 1 ≤ quotient.log2 := by
    unfold gridExponent at hgrid
    omega
  refine ⟨2 ^ quotient.log2, ?_, Nat.pow_dvd_pow 2 (Nat.sub_le _ _), ?_,
    Nat.log2_self_le hquotient⟩
  · rw [← Nat.one_mul (2 ^ quotient.log2)]
    exact onGrid_mul_two_pow (Nat.one_le_two_pow) _
  · exact Nat.lt_of_lt_of_le Nat.lt_log2_self (Nat.pow_le_pow_right (by decide) hlog)

/-- **No count of units on the grid is nearer to a fraction than the one it is rounded to.** -/
theorem dist_nearestUnits_le (numerator : Nat) {denominator units : Nat} (hpos : 0 < denominator)
    (hunits : OnGrid units) :
    (denominator * nearestUnits numerator denominator).dist numerator ≤
      (denominator * units).dist numerator := by
  have hmultiple : ∀ count, 2 ^ gridExponent (numerator / denominator) ∣ count →
      (denominator * nearestUnits numerator denominator).dist numerator ≤
        (denominator * count).dist numerator := by
    rintro _ ⟨count, rfl⟩
    have hspacing : 0 < denominator * 2 ^ gridExponent (numerator / denominator) :=
      Nat.mul_pos hpos (Nat.two_pow_pos _)
    have hle := dist_roundDiv_le .toEven numerator hspacing count
    rw [Nat.mul_assoc, Nat.mul_assoc] at hle
    rwa [nearestUnits, Nat.mul_comm _ (2 ^ _)]
  by_cases hdvd : 2 ^ gridExponent (numerator / denominator) ∣ units
  · exact hmultiple units hdvd
  · obtain ⟨power, -, hpower, hbelow, habove⟩ :=
      exists_onGrid_between numerator denominator hunits hdvd
    have hnumerator : denominator * power ≤ numerator :=
      Nat.le_trans (Nat.mul_le_mul_left denominator habove)
        (Nat.mul_div_le numerator denominator)
    have hunits' : denominator * units ≤ denominator * power :=
      Nat.mul_le_mul_left denominator (Nat.le_of_lt hbelow)
    apply Nat.le_trans (hmultiple power hpower)
    unfold Nat.dist
    omega

/-! ## Numbers that are too small or too large -/

theorem nearestUnits_eq_zero {numerator denominator : Nat}
    (hsmall : 2 * numerator < denominator) : nearestUnits numerator denominator = 0 := by
  have hquotient : numerator / denominator = 0 := Nat.div_eq_of_lt (by omega)
  have hmod : numerator % denominator = numerator := Nat.mod_eq_of_lt (by omega)
  have hspacing : gridExponent 0 = 0 := by decide
  simp only [nearestUnits, hquotient, hspacing, roundDiv, Nat.pow_zero, Nat.mul_one, hmod,
    if_pos hsmall]

/-- Less than half a unit is rounded to zero. -/
theorem ofUnits_eq_zero {numerator denominator : Nat} (negative : Bool)
    (hsmall : 2 * numerator < denominator) :
    ofUnits negative numerator denominator = zero negative := by
  have hzero : nearestUnits numerator denominator = nearestUnits 0 1 := by
    rw [nearestUnits_eq_zero hsmall, nearestUnits_eq_zero (by decide)]
  simp only [zero, ofUnits, hzero]

/-- The power of two below a number is on the grid, so that rounding does not go below it. -/
theorem two_pow_le_nearestUnits {numerator denominator : Nat} (exponent : Nat)
    (hlarge : 2 ^ exponent ≤ numerator / denominator) :
    2 ^ exponent ≤ nearestUnits numerator denominator := by
  let quotient := numerator / denominator
  let spacing := 2 ^ gridExponent quotient
  have hpositive : quotient ≠ 0 := by
    have := Nat.two_pow_pos exponent
    omega
  have hexponent : exponent ≤ quotient.log2 := (Nat.le_log2 hpositive).mpr hlarge
  have hdvd : spacing ∣ 2 ^ quotient.log2 := Nat.pow_dvd_pow 2 (Nat.sub_le _ _)
  calc 2 ^ exponent ≤ 2 ^ quotient.log2 := Nat.pow_le_pow_right (by decide) hexponent
    _ = 2 ^ quotient.log2 / spacing * spacing := (Nat.div_mul_cancel hdvd).symm
    _ ≤ quotient / spacing * spacing :=
        Nat.mul_le_mul_right _ (Nat.div_le_div_right (Nat.log2_self_le hpositive))
    _ = numerator / (denominator * spacing) * spacing := by rw [Nat.div_div_eq_div_mul]
    _ ≤ nearestUnits numerator denominator := Nat.mul_le_mul_right _ (le_roundDiv _ _ _)

theorem ofUnits_eq_infinite {numerator denominator : Nat} (negative : Bool)
    (hlarge : rangeLimit ≤ numerator / denominator) :
    ofUnits negative numerator denominator = .infinite negative := by
  apply dif_neg
  unfold rangeLimit at hlarge ⊢
  generalize (2098 : Nat) = exponent at hlarge ⊢
  exact Nat.not_lt_of_le (two_pow_le_nearestUnits exponent hlarge)

/-! ## Decimal notation -/

/-- The double nearest to `coefficient * 10 ^ exponent`, whatever the power of ten is. -/
def nearestDecimal (negative : Bool) (coefficient : Nat) (exponent : Int) : Binary64 :=
  let (numerator, denominator) := Decimal.scaled (coefficient * one) 1 exponent
  ofUnits negative numerator denominator

section Limits

variable {coefficient limit : Nat} {exponent : Int} (negative : Bool)

theorem nearestDecimal_of_small (hlimit : 2 * one < 10 ^ limit)
    (hsmall : exponent + (Decimal.digits coefficient).length ≤ -limit) :
    nearestDecimal negative coefficient exponent = zero negative := by
  apply ofUnits_eq_zero
  have hzero : exponent.toNat = 0 := by omega
  have hpower : (Decimal.digits coefficient).length + limit ≤ (-exponent).toNat := by omega
  have hcoefficient := Nat.le_of_lt (Decimal.lt_pow_length_digits coefficient)
  generalize (Decimal.digits coefficient).length = places at *
  simp only [hzero, Nat.pow_zero, Nat.mul_one, Nat.one_mul]
  calc 2 * (coefficient * one) = coefficient * (2 * one) := Nat.mul_left_comm ..
    _ ≤ 10 ^ places * (2 * one) := Nat.mul_le_mul_right _ hcoefficient
    _ < 10 ^ places * 10 ^ limit := Nat.mul_lt_mul_of_pos_left hlimit (Nat.pow_pos (by decide))
    _ = 10 ^ (places + limit) := (Nat.pow_add ..).symm
    _ ≤ 10 ^ (-exponent).toNat := Nat.pow_le_pow_right (by decide) hpower

theorem nearestDecimal_of_large (hcoefficient : coefficient ≠ 0)
    (hlimit : rangeLimit ≤ 10 ^ limit * one)
    (hlarge : limit < exponent + (Decimal.digits coefficient).length) :
    nearestDecimal negative coefficient exponent = .infinite negative := by
  apply ofUnits_eq_infinite
  have hpositive : 0 < (Decimal.digits coefficient).length := Nat.length_toDigits_pos
  let places := limit + (-exponent).toNat - exponent.toNat
  have hplaces : 10 ^ places ≤ coefficient :=
    Decimal.pow_le_of_length_digits hcoefficient (by omega)
  have hpower : limit + (-exponent).toNat ≤ places + exponent.toNat := by omega
  rw [Nat.one_mul, Nat.le_div_iff_mul_le (Nat.pow_pos (by decide))]
  calc rangeLimit * 10 ^ (-exponent).toNat
      ≤ 10 ^ limit * one * 10 ^ (-exponent).toNat := Nat.mul_le_mul_right _ hlimit
    _ = 10 ^ (limit + (-exponent).toNat) * one := by rw [Nat.pow_add, Nat.mul_right_comm]
    _ ≤ 10 ^ (places + exponent.toNat) * one :=
        Nat.mul_le_mul_right _ (Nat.pow_le_pow_right (by decide) hpower)
    _ = 10 ^ places * one * 10 ^ exponent.toNat := by rw [Nat.pow_add, Nat.mul_right_comm]
    _ ≤ coefficient * one * 10 ^ exponent.toNat :=
        Nat.mul_le_mul_right _ (Nat.mul_le_mul_right _ hplaces)

end Limits

/-- **The double of a number in decimal notation is the one nearest to it.** -/
theorem ofDecimal_eq_nearestDecimal (negative : Bool) (coefficient : Nat) (exponent : Int) :
    ofDecimal negative coefficient exponent = nearestDecimal negative coefficient exponent := by
  have hsmallest : 2 * one < 10 ^ (330 : Nat) := by decide +kernel
  have hlargest : rangeLimit ≤ 10 ^ (330 : Nat) * one := by decide +kernel
  unfold ofDecimal
  dsimp only
  by_cases hzero : coefficient = 0
  · subst hzero
    rw [if_pos (Or.inl rfl)]
    apply (ofUnits_eq_zero ..).symm
    rw [Nat.zero_mul, Nat.zero_mul, Nat.mul_zero, Nat.one_mul]
    exact Nat.pow_pos (by decide)
  · by_cases hsmall : exponent + (Decimal.digits coefficient).length ≤ -330
    · rw [if_pos (Or.inr hsmall), nearestDecimal_of_small negative hsmallest hsmall]
    · rw [if_neg (not_or_intro hzero hsmall)]
      split
      · rename_i hlarge
        exact (nearestDecimal_of_large negative hzero hlargest hlarge).symm
      · rfl

end Binary64

end LetterMachine
