import LetterMachine.Proofs.Narrowing
import LetterMachine.Proofs.SignificantDigits
import Mathlib.Data.Nat.Cast.Order.Field

/-!
# Nearest doubles

A fraction of units is rounded to a count on the grid, and no other count there is nearer to it.
`Binary64.roundsTo_ofUnits` says what comes of a rational number in this way: the nearest double, of
two that are equally near the one with an even significand, and an infinity from half a spacing
above the largest double on.
-/

namespace LetterMachine

theorem abs_sub_mul_of_pos {factor : ℚ} (hfactor : 0 < factor) (left right : ℚ) :
    |left - right| * factor = |left * factor - right * factor| := by
  rw [← sub_mul, abs_mul, abs_of_pos hfactor]

/-! ## Nearest doubles -/

namespace Binary64

theorem cast_dist (left right : ℕ) : ((left.dist right : ℕ) : ℚ) = |(left : ℚ) - right| := by
  rcases le_total left right with hle | hle
  · rw [Nat.dist_eq_sub_of_le hle, Nat.cast_sub hle, abs_sub_comm, abs_of_nonneg]
    exact sub_nonneg.mpr (by exact_mod_cast hle)
  · rw [Nat.dist_eq_sub_of_le_right hle, Nat.cast_sub hle, abs_of_nonneg]
    exact sub_nonneg.mpr (by exact_mod_cast hle)

section Nearest

variable (numerator : ℕ) {denominator : ℕ}

/-- No count of units on the grid is nearer to a fraction. -/
theorem abs_nearestUnits_sub_le (hpos : 0 < denominator) {units : ℕ} (honGrid : OnGrid units) :
    |(nearestUnits numerator denominator : ℚ) - numerator / denominator| ≤
      |(units : ℚ) - numerator / denominator| := by
  have hdenominator : (0 : ℚ) < denominator := by exact_mod_cast hpos
  have hscaled (count : ℕ) : ((denominator * count).dist numerator : ℚ) =
      |(count : ℚ) - numerator / denominator| * denominator := by
    rw [cast_dist, abs_sub_mul_of_pos hdenominator, div_mul_cancel₀ _ hdenominator.ne', mul_comm,
      Nat.cast_mul]
  have hle := dist_nearestUnits_le numerator hpos honGrid
  have hle' : ((denominator * nearestUnits numerator denominator).dist numerator : ℚ) ≤
      (denominator * units).dist numerator := by exact_mod_cast hle
  rw [hscaled, hscaled] at hle'
  exact le_of_mul_le_mul_right hle' hdenominator

/-- Rounding moves a fraction by at most half the spacing. -/
theorem abs_nearestUnits_sub_le_half (hpos : 0 < denominator) :
    |(nearestUnits numerator denominator : ℚ) - numerator / denominator| ≤
      (2 ^ gridExponent (numerator / denominator) : ℕ) / 2 := by
  rw [nearestUnits]
  have hspacing := Nat.two_pow_pos (gridExponent (numerator / denominator))
  generalize 2 ^ gridExponent (numerator / denominator) = spacing at hspacing
  have hnearest := nearestEven_roundDiv numerator (Nat.mul_pos hpos hspacing)
  have hhalf := hnearest.abs_sub_le
  have hspacing' : (0 : ℚ) < spacing := by exact_mod_cast hspacing
  generalize roundDiv .toEven numerator (denominator * spacing) = count at hhalf
  rw [Nat.cast_mul, ← div_div] at hhalf
  calc |((count * spacing : ℕ) : ℚ) - numerator / denominator|
      = |(numerator : ℚ) / denominator / spacing - count| * spacing := by
        rw [abs_sub_mul_of_pos hspacing', div_mul_cancel₀ _ hspacing'.ne', abs_sub_comm,
          Nat.cast_mul]
    _ ≤ 1 / 2 * spacing := mul_le_mul_of_nonneg_right hhalf hspacing'.le
    _ = spacing / 2 := by ring

/-- The count of units of the largest double. -/
def largest : ℕ := (2 ^ (53 : ℕ) - 1) * 2 ^ (2045 : ℕ)

theorem onGrid_largest : OnGrid largest := by
  unfold largest
  generalize (2045 : ℕ) = exponent
  exact onGrid_mul_two_pow (by decide) exponent

/-- A fraction that is not above the largest double has a nearest one. -/
theorem nearestUnits_lt_rangeLimit (hpos : 0 < denominator)
    (hle : (numerator : ℚ) / denominator ≤ largest) :
    nearestUnits numerator denominator < rangeLimit := by
  have hlargest : largest < rangeLimit := by decide +kernel
  have hnearest := abs_nearestUnits_sub_le numerator hpos onGrid_largest
  rw [abs_of_nonneg (sub_nonneg.mpr hle)] at hnearest
  have hbelow : (nearestUnits numerator denominator : ℚ) ≤ largest := by
    linarith [le_abs_self ((nearestUnits numerator denominator : ℚ) - numerator / denominator)]
  exact Nat.lt_of_le_of_lt (by exact_mod_cast hbelow) hlargest

/-- In the range of normal numbers, rounding moves a fraction by a small part of it. -/
theorem abs_nearestUnits_sub_le_of_normal (hpos : 0 < denominator)
    (hnormal : 2 ^ (52 : ℕ) ≤ numerator / denominator) :
    |(nearestUnits numerator denominator : ℚ) - numerator / denominator| ≤
      numerator / denominator / 2 ^ 53 := by
  have hhalf := abs_nearestUnits_sub_le_half numerator hpos
  have hquotient : ((numerator / denominator : ℕ) : ℚ) ≤ numerator / denominator := Nat.cast_div_le
  generalize numerator / denominator = quotient at hhalf hnormal hquotient
  have hpositive : quotient ≠ 0 := Nat.ne_of_gt (Nat.lt_of_lt_of_le (Nat.two_pow_pos 52) hnormal)
  have hlog : gridExponent quotient + 52 = quotient.log2 :=
    Nat.sub_add_cancel ((Nat.le_log2 hpositive).mpr hnormal)
  have hspacing : 2 ^ gridExponent quotient * 2 ^ (52 : ℕ) ≤ quotient := by
    rw [← Nat.pow_add, hlog]
    exact Nat.log2_self_le hpositive
  have hspacing' : ((2 ^ gridExponent quotient : ℕ) : ℚ) * 2 ^ 52 ≤ quotient := by
    exact_mod_cast hspacing
  linarith

end Nearest

end Binary64

/-! ## Ties -/

/-- If another whole number is as near as the nearest one, the nearest one is even. -/
theorem even_of_nearestEven_of_tie {value : ℚ} {count other : ℕ} (hcount : NearestEven value count)
    (htie : |(other : ℚ) - value| = |(count : ℚ) - value|) (hother : other ≠ count) :
    Even count := by
  apply hcount.even_of_eq
  have hhalf := hcount.abs_sub_le
  have hapart : (1 : ℚ) ≤ |(other : ℚ) - count| := by
    have hne : (other : ℤ) - count ≠ 0 := sub_ne_zero.mpr (Int.natCast_inj.not.mpr hother)
    exact_mod_cast Int.one_le_abs hne
  have htriangle := abs_sub_le (other : ℚ) value count
  rw [htie, abs_sub_comm (count : ℚ)] at htriangle
  linarith

namespace Binary64

/-- The last digit of a count on the grid is zero. -/
def EvenUnits (units : ℕ) : Prop :=
  Even (units / 2 ^ gridExponent units)

/-- A count with an even significand, which may be a power of two that has a digit too many. -/
theorem evenUnits_mul_two_pow {significand exponent : ℕ} (heven : Even significand)
    (hsignificand : significand ≤ 2 ^ precision)
    (hfull : 2 ^ fractionBits ≤ significand ∨ exponent = 0) :
    EvenUnits (significand * 2 ^ exponent) := by
  rcases Nat.lt_or_eq_of_le hsignificand with hless | rfl
  · rw [EvenUnits, gridExponent_mul_two_pow hless hfull,
      Nat.mul_div_cancel _ (Nat.two_pow_pos exponent)]
    exact heven
  · have hdouble : 2 ^ precision * 2 ^ exponent = 2 ^ fractionBits * 2 ^ (exponent + 1) := by
      rw [← Nat.pow_add, ← Nat.pow_add]
      congr 1
      exact Nat.add_right_comm 52 1 exponent
    have hless : 2 ^ fractionBits < 2 ^ precision := Nat.pow_lt_pow_right (by decide) (by decide)
    rw [hdouble, EvenUnits, gridExponent_mul_two_pow hless (.inl le_rfl),
      Nat.mul_div_cancel _ (Nat.two_pow_pos _)]
    exact Nat.even_pow.mpr ⟨even_two, by decide⟩

theorem lt_two_pow_gridExponent (units : ℕ) : units < 2 ^ (gridExponent units + 53) := by
  refine Nat.lt_of_lt_of_le Nat.lt_log2_self (Nat.pow_le_pow_right (by decide) ?_)
  unfold gridExponent precision
  omega

theorem gridExponent_le {left right : ℕ} (hle : left ≤ right) :
    gridExponent left ≤ gridExponent right := by
  rcases Nat.eq_zero_or_pos left with rfl | hpositive
  · exact Nat.zero_le _
  · have hlower := (Nat.log2_self_le hpositive.ne').trans hle
    exact Nat.sub_le_sub_right ((Nat.le_log2 (hpositive.trans_le hle).ne').mpr hlower) _

/-- A count on the grid is a significand, which has all its digits or is not moved up. -/
theorem exists_significand {units : ℕ} (honGrid : OnGrid units) :
    ∃ significand, units = significand * 2 ^ gridExponent units ∧ significand < 2 ^ precision ∧
      (2 ^ fractionBits ≤ significand ∨ gridExponent units = 0) := by
  obtain ⟨significand, hunits⟩ := honGrid
  have hspacing := Nat.two_pow_pos (gridExponent units)
  rw [Nat.mul_comm] at hunits
  refine ⟨significand, hunits, ?_, ?_⟩
  · have hless := lt_two_pow_gridExponent units
    rw [Nat.add_comm, Nat.pow_add] at hless
    generalize 2 ^ gridExponent units = spacing at *
    rw [hunits] at hless
    exact Nat.lt_of_mul_lt_mul_right hless
  · apply or_iff_not_imp_right.mpr
    intro hgrid
    have hlog : fractionBits + gridExponent units = units.log2 := by
      unfold gridExponent at hgrid ⊢
      rw [fractionBits]
      omega
    have hnonzero : units ≠ 0 := by
      rintro rfl
      exact hgrid rfl
    have hleading := Nat.log2_self_le hnonzero
    rw [← hlog, Nat.pow_add] at hleading
    generalize 2 ^ gridExponent units = spacing at *
    rw [hunits] at hleading
    exact Nat.le_of_mul_le_mul_right hleading hspacing

/-- Two counts with an even last digit are not neighbours on the grid. -/
theorem exists_onGrid_of_evenUnits {lower upper : ℕ} (hlower : OnGrid lower) (hupper : OnGrid upper)
    (hless : lower < upper) (heven : EvenUnits lower) (heven' : EvenUnits upper) :
    ∃ between, OnGrid between ∧ lower < between ∧ between < upper := by
  have hdvd := Nat.dvd_trans (Nat.pow_dvd_pow 2 (gridExponent_le hless.le)) hupper
  obtain ⟨significand, hlower, hsignificand, hfull⟩ := exists_significand hlower
  rw [EvenUnits] at heven
  generalize gridExponent lower = exponent at *
  have hspacing := Nat.two_pow_pos exponent
  subst hlower
  rw [Nat.mul_div_cancel _ hspacing] at heven
  have hodd : ¬Even (significand + 1) := Nat.even_add_one.not.mpr (not_not.mpr heven)
  obtain ⟨multiple, rfl⟩ := hdvd
  rw [Nat.mul_comm _ multiple] at *
  have hmultiple : significand < multiple := Nat.lt_of_mul_lt_mul_right hless
  refine ⟨(significand + 1) * 2 ^ exponent, onGrid_mul_two_pow hsignificand exponent,
    Nat.mul_lt_mul_of_pos_right (Nat.lt_succ_self _) hspacing,
    Nat.mul_lt_mul_of_pos_right (Nat.lt_of_le_of_ne hmultiple ?_) hspacing⟩
  rintro rfl
  have hsucc : significand + 1 < 2 ^ precision := by
    refine Nat.lt_of_le_of_ne hsignificand fun heq => hodd ?_
    rw [heq]
    exact Nat.even_pow.mpr ⟨even_two, by decide⟩
  rw [EvenUnits, gridExponent_mul_two_pow hsucc (hfull.imp_left Nat.le_succ_of_le),
    Nat.mul_div_cancel _ hspacing] at heven'
  exact hodd heven'

section Ties

variable (numerator : ℕ) {denominator : ℕ}

theorem le_roundDiv_spacing (denominator : ℕ) :
    2 ^ fractionBits ≤ roundDiv .toEven numerator
      (denominator * 2 ^ gridExponent (numerator / denominator)) ∨
        gridExponent (numerator / denominator) = 0 := by
  apply or_iff_not_imp_right.mpr
  intro hgrid
  apply le_trans _ (le_roundDiv ..)
  rw [← Nat.div_div_eq_div_mul]
  generalize numerator / denominator = quotient at *
  have hlog : fractionBits + gridExponent quotient = quotient.log2 := by
    unfold gridExponent at hgrid ⊢
    rw [fractionBits]
    omega
  have hquotient : quotient ≠ 0 := by
    rintro rfl
    exact hgrid rfl
  rw [Nat.le_div_iff_mul_le (Nat.two_pow_pos _), ← Nat.pow_add, hlog]
  exact Nat.log2_self_le hquotient

/-- If another count on the grid is as near, the one that is rounded to is even. -/
theorem evenUnits_nearestUnits (hpos : 0 < denominator) {units : ℕ} (honGrid : OnGrid units)
    (htie : |(units : ℚ) - numerator / denominator| =
      |(nearestUnits numerator denominator : ℚ) - numerator / denominator|)
    (hother : units ≠ nearestUnits numerator denominator) :
    EvenUnits (nearestUnits numerator denominator) := by
  by_cases hdvd : 2 ^ gridExponent (numerator / denominator) ∣ units
  · -- Both are multiples of the same spacing.
    obtain ⟨count, rfl⟩ := hdvd
    have hle : roundDiv .toEven numerator
        (denominator * 2 ^ gridExponent (numerator / denominator)) ≤ 2 ^ precision :=
      roundDiv_spacing_le numerator denominator
    have hfull : 2 ^ fractionBits ≤ roundDiv .toEven numerator
        (denominator * 2 ^ gridExponent (numerator / denominator)) ∨
          gridExponent (numerator / denominator) = 0 :=
      le_roundDiv_spacing numerator denominator
    rw [nearestUnits] at htie hother ⊢
    have hspacing := Nat.two_pow_pos (gridExponent (numerator / denominator))
    have hnearest := nearestEven_roundDiv numerator (Nat.mul_pos hpos hspacing)
    generalize roundDiv .toEven numerator
      (denominator * 2 ^ gridExponent (numerator / denominator)) = nearest at *
    have htied : |(count : ℚ) - _| = _ → count ≠ nearest → Even nearest :=
      even_of_nearestEven_of_tie hnearest
    refine evenUnits_mul_two_pow (htied ?_ ?_) hle hfull
    · generalize 2 ^ gridExponent (numerator / denominator) = spacing at hspacing htie ⊢
      have hspacing' : (0 : ℚ) < spacing := by exact_mod_cast hspacing
      have hscaled (multiple : ℕ) : |(multiple : ℚ) - numerator / (denominator * spacing : ℕ)| *
          spacing = |((multiple * spacing : ℕ) : ℚ) - numerator / denominator| := by
        rw [abs_sub_mul_of_pos hspacing', Nat.cast_mul, Nat.cast_mul, ← div_div,
          div_mul_cancel₀ _ hspacing'.ne']
      apply mul_right_cancel₀ hspacing'.ne'
      rw [hscaled, hscaled, ← htie, mul_comm count]
    · rintro rfl
      exact hother (Nat.mul_comm ..)
  · -- A power of two lies between the count and the fraction, and is nearer to it.
    obtain ⟨power, hpower, -, hbelow, habove⟩ :=
      exists_onGrid_between numerator denominator honGrid hdvd
    have hnearest := abs_nearestUnits_sub_le numerator hpos hpower
    have hquotient : ((numerator / denominator : ℕ) : ℚ) ≤ numerator / denominator :=
      Nat.cast_div_le
    have hbelow' : (units : ℚ) < power := by exact_mod_cast hbelow
    have habove' : (power : ℚ) ≤ (numerator / denominator : ℕ) := by exact_mod_cast habove
    rw [← htie, abs_of_nonpos (by linarith), abs_of_nonpos (by linarith)] at hnearest
    linarith

end Ties

/-! ## Overflow -/

theorem onGrid_rangeLimit : OnGrid rangeLimit := by
  unfold rangeLimit
  generalize (2098 : ℕ) = exponent
  rw [← Nat.one_mul (2 ^ exponent)]
  exact onGrid_mul_two_pow Nat.one_le_two_pow exponent

theorem not_evenUnits_largest : ¬EvenUnits largest := by
  unfold largest
  generalize (2045 : ℕ) = exponent
  have hfull : 2 ^ fractionBits ≤ 2 ^ (53 : ℕ) - 1 := by decide
  rw [EvenUnits, gridExponent_mul_two_pow (by decide) (.inl hfull),
    Nat.mul_div_cancel _ (Nat.two_pow_pos exponent)]
  decide

theorem two_pow_of_eq_add (total first second : ℕ) (htotal : total = first + second) :
    2 ^ total = 2 ^ first * 2 ^ second := by
  rw [htotal, Nat.pow_add]

theorem rangeLimit_eq : rangeLimit = 2 ^ (53 : ℕ) * 2 ^ (2045 : ℕ) := by
  unfold rangeLimit
  exact two_pow_of_eq_add 2098 53 2045 rfl

/-- Half of the spacing around the largest double. -/
def halfSpacing : ℕ := 2 ^ (2044 : ℕ)

theorem halfSpacing_pos : 0 < halfSpacing := by
  unfold halfSpacing
  exact Nat.two_pow_pos 2044

/-- The range ends one spacing above the largest double. -/
theorem largest_add_spacing : largest + 2 * halfSpacing = rangeLimit := by
  have hdouble : 2 ^ (2045 : ℕ) = 2 ^ (1 : ℕ) * 2 ^ (2044 : ℕ) := two_pow_of_eq_add 2045 1 2044 rfl
  rw [rangeLimit_eq, largest, hdouble, halfSpacing]
  generalize 2 ^ (2044 : ℕ) = spacing
  omega

/-- Between the largest double and the end of the range there is none. -/
theorem le_largest {units : ℕ} (honGrid : OnGrid units) (hrange : units < rangeLimit) :
    units ≤ largest := by
  rw [rangeLimit_eq] at hrange
  unfold largest
  generalize (2045 : ℕ) = exponent at hrange ⊢
  apply Nat.le_of_not_lt
  intro hlarge
  have hspacing := Nat.two_pow_pos exponent
  have hleading : 2 ^ (52 : ℕ) * 2 ^ exponent ≤ units :=
    Nat.le_trans (Nat.mul_le_mul_right _ (by decide)) hlarge.le
  have hlog : units.log2 = 52 + exponent := by
    rw [Nat.log2_eq_iff (Nat.ne_of_gt (Nat.zero_lt_of_lt hlarge)), Nat.add_right_comm, Nat.pow_add,
      Nat.pow_add]
    exact ⟨hleading, hrange⟩
  have hgrid : gridExponent units = exponent := by
    rw [gridExponent, hlog, precision]
    exact Nat.add_sub_cancel_left ..
  rw [OnGrid, hgrid] at honGrid
  obtain ⟨count, rfl⟩ := honGrid
  rw [Nat.mul_comm _ count] at hlarge hrange
  have hlower := Nat.lt_of_mul_lt_mul_right hlarge
  have hupper := Nat.lt_of_mul_lt_mul_right hrange
  omega

/-- Half a spacing below the limit of the range, in units. -/
theorem threshold_mul_one : ((2 ^ 1024 - 2 ^ 970) * one : ℚ) = rangeLimit - halfSpacing := by
  have hlimit : 2 ^ (2098 : ℕ) = 2 ^ (1024 : ℕ) * 2 ^ (1074 : ℕ) :=
    two_pow_of_eq_add 2098 1024 1074 rfl
  have hhalf : 2 ^ (2044 : ℕ) = 2 ^ (970 : ℕ) * 2 ^ (1074 : ℕ) :=
    two_pow_of_eq_add 2044 970 1074 rfl
  rw [rangeLimit, hlimit, halfSpacing, hhalf]
  unfold one
  have hproduct (first second unit : ℕ) : ((2 ^ first - 2 ^ second) * unit : ℚ) =
      (2 ^ first * unit : ℕ) - (2 ^ second * unit : ℕ) := by
    push_cast
    ring
  exact hproduct 1024 970 _

/-- Half a spacing above the largest double, rounding leaves the range. -/
theorem rangeLimit_le_nearestUnits_iff (numerator : ℕ) {denominator : ℕ} (hpos : 0 < denominator) :
    rangeLimit ≤ nearestUnits numerator denominator ↔
      ((2 ^ 1024 - 2 ^ 970) * one : ℚ) ≤ numerator / denominator := by
  have hlargest : (largest : ℚ) + 2 * halfSpacing = rangeLimit := by
    exact_mod_cast largest_add_spacing
  have hhalf : (0 : ℚ) < halfSpacing := by exact_mod_cast halfSpacing_pos
  have hbelow := abs_nearestUnits_sub_le numerator hpos onGrid_largest
  have habove := abs_nearestUnits_sub_le numerator hpos onGrid_rangeLimit
  have hle := le_largest (onGrid_nearestUnits numerator denominator)
  have htie := evenUnits_nearestUnits numerator hpos onGrid_rangeLimit
  have hodd := not_evenUnits_largest
  rw [threshold_mul_one]
  generalize halfSpacing = half at *
  generalize nearestUnits numerator denominator = nearest at *
  generalize (numerator : ℚ) / denominator = exact at *
  generalize rangeLimit = limit at *
  generalize largest = greatest at *
  constructor
  · intro hlarge
    by_contra hsmall
    rw [not_le] at hsmall
    have hlarge' : (limit : ℚ) ≤ nearest := by exact_mod_cast hlarge
    have hfar := (le_abs_self _).trans hbelow
    rcases abs_cases ((greatest : ℚ) - exact) with ⟨habs, -⟩ | ⟨habs, -⟩ <;>
      rw [habs] at hfar <;> linarith
  · intro hlarge
    by_contra hsmall
    rw [not_le] at hsmall
    have hnearest : (nearest : ℚ) ≤ greatest := by exact_mod_cast hle hsmall
    have hfar := (neg_abs_le _).trans' (neg_le_neg habove)
    have hlower : (greatest : ℚ) ≤ nearest ∧ exact = limit - half := by
      rcases abs_cases ((limit : ℚ) - exact) with ⟨habs, -⟩ | ⟨habs, -⟩ <;>
        rw [habs] at hfar <;> constructor <;> linarith
    obtain ⟨hlower, rfl⟩ := hlower
    have heq : nearest = greatest := by
      exact_mod_cast le_antisymm hnearest hlower
    subst heq
    refine hodd (htie ?_ (Nat.ne_of_gt hsmall))
    rw [abs_of_nonneg (by linarith), abs_of_nonpos (by linarith)]
    linarith

/-! ## The double that a number is rounded to -/

/-- The double that a rational number is rounded to: the nearest one, of two that are equally near
the one with an even significand, and an infinity from half a spacing above the largest double on.
It has the sign of the number, and the sign of a zero that is exact is given. -/
inductive RoundsTo (exact : ℚ) (zeroSign : Bool) : Binary64 → Prop where
  | infinite (hlarge : 2 ^ 1024 - 2 ^ 970 ≤ |exact|) :
      RoundsTo exact zeroSign (.infinite (decide (exact < 0)))
  | finite {negative : Bool} {magnitude : Magnitude} {value : ℚ}
      (hrange : |exact| < 2 ^ 1024 - 2 ^ 970)
      (hsign : negative = if exact = 0 then zeroSign else decide (exact < 0))
      (hvalue : (Binary64.finite negative magnitude).toRat? = some value)
      (hnearest : ∀ other otherValue, toRat? other = some otherValue →
        |value - exact| ≤ |otherValue - exact|)
      (heven : ∀ other otherValue, toRat? other = some otherValue → otherValue ≠ value →
        |otherValue - exact| = |value - exact| → EvenUnits magnitude.units) :
      RoundsTo exact zeroSign (.finite negative magnitude)

/-- A number with its sign. -/
def signed (negative : Bool) (absolute : ℚ) : ℚ :=
  if negative then -absolute else absolute

theorem abs_signed (negative : Bool) (absolute : ℚ) : |signed negative absolute| = |absolute| := by
  cases negative
  · rfl
  · exact abs_neg absolute

/-- A number with a sign of its own is at least as far away as it is without the signs, and as far
only if the signs agree. -/
theorem abs_sub_le_abs_signed_sub (first second : Bool) {left right : ℚ} (hleft : 0 ≤ left)
    (hright : 0 ≤ right) :
    |left - right| ≤ |signed first left - signed second right| := by
  have hle := abs_abs_sub_abs_le_abs_sub (signed first left) (signed second right)
  rwa [abs_signed, abs_signed, abs_of_nonneg hleft, abs_of_nonneg hright] at hle

theorem abs_signed_sub_signed (negative : Bool) (left right : ℚ) :
    |signed negative left - signed negative right| = |left - right| := by
  cases negative
  · rfl
  · rw [signed, signed, if_pos rfl, if_pos rfl, ← abs_neg, neg_sub, sub_neg_eq_add, neg_add_eq_sub]

/-- Only zero is as far from a number as it is from the same one with the other sign. -/
theorem eq_zero_of_abs_signed_sub_eq {first second : Bool} {left right : ℚ} (hleft : 0 ≤ left)
    (heq : |signed first left - signed second right| = |left - right|)
    (hne : signed first left ≠ signed second left) : right = 0 := by
  have hsquares := congrArg (· ^ 2) heq
  rw [sq_abs, sq_abs] at hsquares
  have hproduct : left * right = 0 := by
    cases first <;> cases second <;> simp [signed] at hne hsquares <;> linarith
  rcases mul_eq_zero.mp hproduct with rfl | hzero
  · cases first <;> cases second <;> simp [signed] at hne
  · exact hzero

theorem units_div_nonneg (units : ℕ) : (0 : ℚ) ≤ units / one :=
  div_nonneg (Nat.cast_nonneg _) (Nat.cast_nonneg _)

theorem signedUnits_div_one (negative : Bool) (magnitude : Magnitude) :
    (signedUnits negative magnitude / one : ℚ) = signed negative (magnitude.units / one) := by
  cases negative
  · rfl
  · rw [signedUnits, if_pos rfl, Int.cast_neg, Int.cast_natCast, neg_div]
    rfl

theorem toRat?_finite (negative : Bool) (magnitude : Magnitude) :
    (Binary64.finite negative magnitude).toRat? =
      some (signed negative (magnitude.units / one)) :=
  congrArg some (signedUnits_div_one negative magnitude)

theorem exists_of_toRat?_eq_some {number : Binary64} {value : ℚ}
    (hvalue : number.toRat? = some value) :
    ∃ negative magnitude, number = .finite negative magnitude ∧
      value = signed negative (magnitude.units / one) := by
  cases number with
  | nan => cases hvalue
  | infinite => cases hvalue
  | finite negative magnitude =>
      rw [toRat?_finite, Option.some.injEq] at hvalue
      exact ⟨negative, magnitude, rfl, hvalue.symm⟩

/-- A number is its absolute value with its sign. -/
theorem eq_signed_abs (exact : ℚ) (zeroSign : Bool) :
    exact = signed (if exact = 0 then zeroSign else decide (exact < 0)) |exact| := by
  split
  · rename_i hzero
    rw [hzero, abs_zero]
    cases zeroSign <;> simp [signed]
  · rcases lt_or_ge exact 0 with hless | hge
    · simp [signed, hless, abs_of_neg hless]
    · simp [signed, not_lt.mpr hge, abs_of_nonneg hge]

theorem abs_div_one_sub_mul_one (left right : ℚ) :
    |left / one - right / one| * one = |left - right| := by
  have hone : (0 : ℚ) < one := by exact_mod_cast one_pos
  rw [abs_sub_mul_of_pos hone, div_mul_cancel₀ _ hone.ne', div_mul_cancel₀ _ hone.ne']

section Nearest

variable (numerator : ℕ) {denominator : ℕ} (hpos : 0 < denominator) (negative otherNegative : Bool)
  {units : ℕ} (hgrid : OnGrid units)

include hpos hgrid

/-- The nearest units are also the nearest among numbers with a sign. -/
theorem abs_nearest_sub_le_abs_signed_sub :
    |(nearestUnits numerator denominator / one : ℚ) - numerator / denominator / one| ≤
      |signed otherNegative (units / one) - signed negative (numerator / denominator / one)| := by
  have hone : (0 : ℚ) < one := by exact_mod_cast one_pos
  have hvalue : (0 : ℚ) ≤ numerator / denominator / one :=
    div_nonneg (div_nonneg (Nat.cast_nonneg _) (Nat.cast_nonneg _)) hone.le
  refine le_trans ?_ (abs_sub_le_abs_signed_sub otherNegative negative (units_div_nonneg _) hvalue)
  rw [← mul_le_mul_iff_left₀ hone, abs_div_one_sub_mul_one, abs_div_one_sub_mul_one]
  exact abs_nearestUnits_sub_le numerator hpos hgrid

/-- And they are even if another number is as near. -/
theorem evenUnits_of_signed_tie
    (hne : signed otherNegative (units / one) ≠
      signed negative (nearestUnits numerator denominator / one))
    (heq : |signed otherNegative (units / one) - signed negative (numerator / denominator / one)| =
      |(nearestUnits numerator denominator / one : ℚ) - numerator / denominator / one|) :
    EvenUnits (nearestUnits numerator denominator) := by
  have hone : (0 : ℚ) < one := by exact_mod_cast one_pos
  have hvalue : (0 : ℚ) ≤ numerator / denominator / one :=
    div_nonneg (div_nonneg (Nat.cast_nonneg _) (Nat.cast_nonneg _)) hone.le
  have hle := abs_sub_le_abs_signed_sub otherNegative negative (units_div_nonneg units) hvalue
  rw [heq, ← mul_le_mul_iff_left₀ hone, abs_div_one_sub_mul_one, abs_div_one_sub_mul_one] at hle
  have htie := le_antisymm hle (abs_nearestUnits_sub_le numerator hpos hgrid)
  by_cases hunits : units = nearestUnits numerator denominator
  · -- The same double with the other sign is as near to zero alone.
    rw [hunits] at heq hne
    have hzero := eq_zero_of_abs_signed_sub_eq (units_div_nonneg _) heq hne
    rw [div_eq_zero_iff, or_iff_left hone.ne'] at hzero
    have hnone := abs_nearestUnits_sub_le numerator hpos (Nat.dvd_zero _ : OnGrid 0)
    rw [hzero, sub_zero, sub_zero, Nat.cast_zero, abs_zero, abs_nonpos_iff] at hnone
    rw [hnone, zero_div] at hne
    cases otherNegative <;> cases negative <;> simp [signed] at hne
  · exact evenUnits_nearestUnits numerator hpos hgrid htie hunits

end Nearest

/-- **A fraction of units is rounded to the nearest double.** -/
theorem roundsTo_ofUnits {exact : ℚ} {zeroSign negative : Bool} {numerator denominator : ℕ}
    (hpos : 0 < denominator) (habsolute : |exact| = (numerator : ℚ) / denominator / one)
    (hsign : negative = if exact = 0 then zeroSign else decide (exact < 0)) :
    RoundsTo exact zeroSign (ofUnits negative numerator denominator) := by
  have hone : (0 : ℚ) < one := by exact_mod_cast one_pos
  have hoverflow := rangeLimit_le_nearestUnits_iff numerator hpos
  rw [← le_div_iff₀ hone, ← habsolute] at hoverflow
  unfold ofUnits
  split
  · rename_i hrange
    rw [← not_le, hoverflow, not_le] at hrange
    have hexact : exact = signed negative ((numerator : ℚ) / denominator / one) := by
      rw [← habsolute, hsign]
      exact eq_signed_abs exact zeroSign
    refine .finite hrange hsign (toRat?_finite ..) ?_ ?_
    · intro other otherValue hother
      obtain ⟨otherNegative, otherMagnitude, rfl, rfl⟩ := exists_of_toRat?_eq_some hother
      rw [hexact, abs_signed_sub_signed]
      exact abs_nearest_sub_le_abs_signed_sub numerator hpos _ _ otherMagnitude.onGrid
    · intro other otherValue hother hne heq
      obtain ⟨otherNegative, otherMagnitude, rfl, rfl⟩ := exists_of_toRat?_eq_some hother
      rw [hexact, abs_signed_sub_signed] at heq
      exact evenUnits_of_signed_tie numerator hpos _ _ otherMagnitude.onGrid hne heq
  · rename_i hlarge
    rw [not_lt, hoverflow] at hlarge
    have hthreshold : (0 : ℚ) < 2 ^ 1024 - 2 ^ 970 :=
      sub_pos.mpr (pow_lt_pow_right₀ one_lt_two (by decide))
    have hnonzero : exact ≠ 0 := abs_pos.mp (hthreshold.trans_le hlarge)
    rw [hsign, if_neg hnonzero]
    exact .infinite hlarge

/-- A number strictly between two others is nearer to any number than both, if those are equally
near. -/
theorem abs_sub_lt_of_between {lower between upper exact : ℚ} (hlower : lower < between)
    (hupper : between < upper) (hsame : |lower - exact| = |upper - exact|) :
    |between - exact| < |lower - exact| := by
  rcases abs_cases (lower - exact) with ⟨hlow, hlow'⟩ | ⟨hlow, hlow'⟩ <;>
    rcases abs_cases (upper - exact) with ⟨hhigh, hhigh'⟩ | ⟨hhigh, hhigh'⟩ <;>
    rw [hlow, hhigh] at hsame <;> rw [hlow, abs_lt] <;> constructor <;> linarith

theorem signed_lt_signed (negative : Bool) {left right : ℚ} (hlt : left < right) :
    if negative then signed negative right < signed negative left
    else signed negative left < signed negative right := by
  cases negative
  · exact hlt
  · exact neg_lt_neg hlt

/-- Of two doubles that are equally near to a number, with the other sign or not, one has an odd
last digit if no other is nearer. -/
theorem not_both_even {exact : ℚ} {negative : Bool} {lower upper : Magnitude}
    (hless : lower.units < upper.units)
    (hsame : |signed negative (lower.units / one) - exact| =
      |signed negative (upper.units / one) - exact|)
    (hnearest : ∀ other otherValue, toRat? other = some otherValue →
      |signed negative (lower.units / one) - exact| ≤ |otherValue - exact|)
    (heven : EvenUnits lower.units) : ¬EvenUnits upper.units := by
  intro heven'
  have hone : (0 : ℚ) < one := by exact_mod_cast one_pos
  obtain ⟨between, honGrid, hlower, hupper⟩ :=
    exists_onGrid_of_evenUnits lower.onGrid upper.onGrid hless heven heven'
  have hbelow : (lower.units / one : ℚ) < between / one :=
    (div_lt_div_iff_of_pos_right hone).mpr (by exact_mod_cast hlower)
  have habove : (between / one : ℚ) < upper.units / one :=
    (div_lt_div_iff_of_pos_right hone).mpr (by exact_mod_cast hupper)
  have hother := hnearest (.finite negative ⟨between, honGrid, hupper.trans upper.inRange⟩) _
    (toRat?_finite ..)
  have hbelow' := signed_lt_signed negative hbelow
  have habove' := signed_lt_signed negative habove
  apply hother.not_gt
  cases negative with
  | false => exact abs_sub_lt_of_between hbelow' habove' hsame
  | true =>
      rw [hsame]
      exact abs_sub_lt_of_between habove' hbelow' hsame.symm

/-- A number is rounded to one double. -/
theorem RoundsTo.unique {exact : ℚ} {zeroSign : Bool} {first second : Binary64}
    (hfirst : RoundsTo exact zeroSign first) (hsecond : RoundsTo exact zeroSign second) :
    first = second := by
  cases hfirst with
  | infinite hlarge =>
      cases hsecond with
      | infinite => rfl
      | finite hrange => exact absurd hrange hlarge.not_gt
  | @finite negative magnitude value hrange hsign hvalue hnearest heven =>
      cases hsecond with
      | infinite hlarge => exact absurd hrange hlarge.not_gt
      | @finite negative' magnitude' value' _ hsign' hvalue' hnearest' heven' =>
          obtain rfl : negative = negative' := hsign.trans hsign'.symm
          obtain rfl := Option.some.inj ((toRat?_finite ..).symm.trans hvalue)
          obtain rfl := Option.some.inj ((toRat?_finite ..).symm.trans hvalue')
          have hsame := (hnearest _ _ hvalue').antisymm (hnearest' _ _ hvalue)
          congr 1
          apply Magnitude.ext
          by_contra hne
          have hone : (one : ℚ) ≠ 0 := by exact_mod_cast one_pos.ne'
          have hvalues : signed negative (magnitude.units / one) ≠
              signed negative (magnitude'.units / one) := by
            intro heq
            apply hne
            have habsolute := congrArg abs heq
            rw [abs_signed, abs_signed, abs_of_nonneg (units_div_nonneg _),
              abs_of_nonneg (units_div_nonneg _), div_left_inj' hone] at habsolute
            exact_mod_cast habsolute
          have heven := heven _ _ hvalue' hvalues.symm hsame.symm
          have heven' := heven' _ _ hvalue hvalues hsame
          rcases Nat.lt_or_gt_of_ne hne with hless | hmore
          · exact not_both_even hless hsame hnearest heven heven'
          · exact not_both_even hmore hsame.symm hnearest' heven' heven

end Binary64

end LetterMachine
