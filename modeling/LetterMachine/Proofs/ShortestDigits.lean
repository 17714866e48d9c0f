import LetterMachine.Binary64.Shortest
import LetterMachine.Proofs.Reprinting
import Mathlib.Algebra.Order.Floor.Semifield
import Mathlib.Data.Rat.Floor

/-!
# Shortest digits read back

The shortest digits of a double are found by trying one digit after the other, up to seventeen.
Seventeen are always enough: a number of seventeen significant digits lies so close to the double
that no other double is nearer, as two doubles are at least `2 ^ -53` of their size apart.

So the shortest digits denote a number to which the double is the nearest one:
`Binary64.Magnitude.shortest_spec`.
-/

namespace LetterMachine

namespace Binary64

/-! ## The nearest double -/

section Nearest

variable {numerator denominator numerator' denominator' : ℕ} {number : ℚ} {negative : Bool}
  {double double' : Binary64}

/-- The nearest count of units is a matter of the fraction alone. -/
theorem nearestUnits_congr (hpos : 0 < denominator) (hpos' : 0 < denominator')
    (heq : (numerator : ℚ) / denominator = numerator' / denominator') :
    nearestUnits numerator denominator = nearestUnits numerator' denominator' := by
  have hquotient : numerator / denominator = numerator' / denominator' := by
    rw [← Nat.floor_div_eq_div (K := ℚ), ← Nat.floor_div_eq_div (K := ℚ), heq]
  rw [nearestUnits, nearestUnits, hquotient]
  have hspacing := Nat.two_pow_pos (gridExponent (numerator' / denominator'))
  generalize 2 ^ gridExponent (numerator' / denominator') = spacing at hspacing
  have hnearest := nearestEven_roundDiv numerator (Nat.mul_pos hpos hspacing)
  have hnearest' := nearestEven_roundDiv numerator' (Nat.mul_pos hpos' hspacing)
  rw [Nat.cast_mul, ← div_div] at hnearest hnearest'
  rw [heq] at hnearest
  exact congrArg (· * spacing) (hnearest.unique hnearest')

theorem ofUnits_congr (hunits : nearestUnits numerator denominator =
    nearestUnits numerator' denominator') :
    ofUnits negative numerator denominator = ofUnits negative numerator' denominator' := by
  unfold ofUnits
  by_cases hrange : nearestUnits numerator denominator < rangeLimit
  · have hrange' : nearestUnits numerator' denominator' < rangeLimit := by rwa [← hunits]
    rw [dif_pos hrange, dif_pos hrange']
    apply congrArg (finite negative)
    apply Magnitude.ext
    exact hunits
  · have hrange' : ¬nearestUnits numerator' denominator' < rangeLimit := by rwa [← hunits]
    rw [dif_neg hrange, dif_neg hrange']

theorem IsNearest.unique (hnearest : IsNearest negative number double)
    (hnearest' : IsNearest negative number double') : double = double' := by
  obtain ⟨numerator, denominator, hpos, heq, hdouble⟩ := hnearest
  obtain ⟨numerator', denominator', hpos', heq', hdouble'⟩ := hnearest'
  rw [hdouble, hdouble']
  exact ofUnits_congr (nearestUnits_congr hpos hpos' (heq.trans heq'.symm))

/-- The sign has no influence on which magnitude is nearest. -/
theorem IsNearest.of_positive {magnitude : Magnitude}
    (hnearest : IsNearest false number (.finite false magnitude)) :
    IsNearest negative number (.finite negative magnitude) := by
  obtain ⟨numerator, denominator, hpos, heq, hdouble⟩ := hnearest
  refine ⟨numerator, denominator, hpos, heq, ?_⟩
  unfold ofUnits at hdouble ⊢
  split
  · rename_i hrange
    rw [dif_pos hrange] at hdouble
    rw [(Binary64.finite.inj hdouble).2]
  · rename_i hrange
    rw [dif_neg hrange] at hdouble
    cases hdouble

/-- Decimal notation goes to the nearest double. -/
theorem isNearest_nearestDecimal (negative : Bool) (coefficient : ℕ) (exponent : ℤ) :
    IsNearest negative (coefficient * 10 ^ exponent)
      (nearestDecimal negative coefficient exponent) := by
  refine ⟨(Decimal.scaled (coefficient * one) 1 exponent).1,
    (Decimal.scaled (coefficient * one) 1 exponent).2, ?_, ?_, rfl⟩
  · exact Nat.mul_pos Nat.one_pos (Nat.pow_pos (by decide))
  · rw [Decimal.scaled_div]
    push_cast
    ring

end Nearest

/-! ## Doubles are sparse -/

/-- Two doubles are at least `2 ^ -53` of the larger one apart. -/
theorem le_two_pow_mul_sub {left right : ℕ} (hleft : OnGrid left) (hright : OnGrid right)
    (hlt : left < right) : right ≤ 2 ^ (53 : ℕ) * (right - left) := by
  have hgrid := gridExponent_le hlt.le
  obtain ⟨low, hlow⟩ := hleft
  obtain ⟨high, hhigh⟩ := Nat.dvd_trans (Nat.pow_dvd_pow 2 hgrid) hright
  have hsmall := lt_two_pow_gridExponent left
  have hspacing := Nat.two_pow_pos (gridExponent left)
  rw [Nat.pow_add] at hsmall
  generalize 2 ^ gridExponent left = spacing at *
  subst hlow hhigh
  have hlow : low < 2 ^ (53 : ℕ) := Nat.lt_of_mul_lt_mul_left hsmall
  have hless : low < high := Nat.lt_of_mul_lt_mul_left hlt
  have hhigh : high ≤ 2 ^ (53 : ℕ) * (high - low) := by omega
  rw [← Nat.mul_sub, Nat.mul_left_comm]
  exact Nat.mul_le_mul_left spacing hhigh

/-- A number that is less than `2 ^ -54` of a double away from it has no other nearest double. -/
theorem nearestUnits_eq_of_close {numerator denominator units : ℕ} (hpos : 0 < denominator)
    (honGrid : OnGrid units)
    (hclose : |(numerator : ℚ) / denominator - units| < units / 2 ^ (54 : ℕ)) :
    nearestUnits numerator denominator = units := by
  have hnearest := abs_nearestUnits_sub_le numerator hpos honGrid
  have honGrid' := onGrid_nearestUnits numerator denominator
  generalize nearestUnits numerator denominator = nearest at hnearest honGrid'
  have hdist : |(nearest : ℚ) - units| < units / 2 ^ (53 : ℕ) := by
    have htriangle := abs_sub_le (nearest : ℚ) (numerator / denominator) units
    rw [abs_sub_comm (units : ℚ)] at hnearest
    have hdouble : (units : ℚ) / 2 ^ (53 : ℕ) = 2 * (units / 2 ^ (54 : ℕ)) := by ring
    linarith
  rcases Nat.lt_trichotomy nearest units with hless | heq | hmore
  · have happart := le_two_pow_mul_sub honGrid' honGrid hless
    have happart' : (units : ℚ) ≤ 2 ^ (53 : ℕ) * (units - nearest) := by
      rw [← Nat.cast_sub (Nat.le_of_lt hless)]
      exact_mod_cast happart
    rw [abs_sub_comm, lt_div_iff₀ (by positivity)] at hdist
    have habs := le_abs_self ((units : ℚ) - nearest)
    linarith
  · exact heq
  · have happart := le_two_pow_mul_sub honGrid honGrid' hmore
    have happart' : (nearest : ℚ) ≤ 2 ^ (53 : ℕ) * (nearest - units) := by
      rw [← Nat.cast_sub (Nat.le_of_lt hmore)]
      exact_mod_cast happart
    have hmore' : (units : ℚ) < nearest := by exact_mod_cast hmore
    rw [lt_div_iff₀ (by positivity)] at hdist
    have habs := le_abs_self ((nearest : ℚ) - units)
    linarith

theorem nearestDecimal_eq_of_close {magnitude : Magnitude} {coefficient : ℕ} {exponent : ℤ}
    (hclose : |(coefficient : ℚ) * 10 ^ exponent - magnitude.toRat| <
      magnitude.toRat / 2 ^ (54 : ℕ)) :
    nearestDecimal false coefficient exponent = .finite false magnitude := by
  have hpos : 0 < (Decimal.scaled (coefficient * one) 1 exponent).2 :=
    Nat.mul_pos Nat.one_pos (Nat.pow_pos (by decide))
  have hfraction := Decimal.scaled_div (coefficient * one) 1 exponent
  rw [nearestDecimal]
  dsimp only
  generalize Decimal.scaled (coefficient * one) 1 exponent = fraction at hpos hfraction
  have hclose' : |(fraction.1 : ℚ) / fraction.2 - magnitude.units| <
      magnitude.units / 2 ^ (54 : ℕ) := by
    have hunits : (magnitude.units : ℚ) = magnitude.toRat * one := by
      rw [Magnitude.toRat, div_mul_cancel₀ _ cast_one_pos.ne']
    have hscaled : (fraction.1 : ℚ) / fraction.2 = coefficient * 10 ^ exponent * one := by
      rw [hfraction]
      push_cast
      ring
    rw [hunits, hscaled, ← abs_sub_mul_of_pos cast_one_pos, mul_div_right_comm]
    exact mul_lt_mul_of_pos_right hclose cast_one_pos
  have hnearest := nearestUnits_eq_of_close hpos magnitude.onGrid hclose'
  have hrange : nearestUnits fraction.1 fraction.2 < rangeLimit := by
    rw [hnearest]
    exact magnitude.inRange
  rw [ofUnits, dif_pos hrange]
  apply congrArg (finite false)
  apply Magnitude.ext
  exact hnearest

/-! ## Significant digits -/

theorem abs_roundDiv_sub_le (tie : Tie) (numerator : ℕ) {denominator : ℕ}
    (hpos : 0 < denominator) :
    |(roundDiv tie numerator denominator : ℚ) - numerator / denominator| ≤ 1 / 2 := by
  have hdenominator : (0 : ℚ) < denominator := by exact_mod_cast hpos
  have hdivision : (numerator : ℚ) =
      denominator * (numerator / denominator : ℕ) + (numerator % denominator : ℕ) := by
    exact_mod_cast (Nat.div_add_mod numerator denominator).symm
  have hnonneg : (0 : ℚ) ≤ (numerator % denominator : ℕ) := Nat.cast_nonneg _
  have hmod : ((numerator % denominator : ℕ) : ℚ) < denominator := by
    exact_mod_cast Nat.mod_lt numerator hpos
  have hscaled : |(roundDiv tie numerator denominator : ℚ) * denominator - numerator| ≤
      1 / 2 * denominator := by
    rw [hdivision, abs_le]
    rcases roundDiv_cases tie numerator denominator with ⟨hrounded, hhalf⟩ | ⟨hrounded, hhalf⟩
    · have hhalf' : (2 : ℚ) * (numerator % denominator : ℕ) ≤ denominator := by
        exact_mod_cast hhalf
      rw [hrounded]
      constructor <;> linarith
    · have hhalf' : (denominator : ℚ) ≤ 2 * (numerator % denominator : ℕ) := by
        exact_mod_cast hhalf
      rw [hrounded]
      push_cast
      constructor <;> linarith
  apply le_of_mul_le_mul_right _ hdenominator
  rwa [abs_sub_mul_of_pos hdenominator, div_mul_cancel₀ _ hdenominator.ne']

namespace Magnitude

variable {magnitude : Magnitude} {tie : Tie} {places : ℕ}

/-- The exponent of the decade that a magnitude is in. -/
def decade (magnitude : Magnitude) : ℤ :=
  Decimal.leadingExponent magnitude.units one

theorem decade_spec (hnonzero : magnitude.units ≠ 0) :
    (10 : ℚ) ^ magnitude.decade ≤ magnitude.toRat ∧
      magnitude.toRat < 10 ^ (magnitude.decade + 1) :=
  Decimal.leadingExponent_spec (Nat.pos_of_ne_zero hnonzero) one_pos

/-- The magnitude in units of its last place, if it is given that many places behind the first. -/
def inPlaces (magnitude : Magnitude) (places : ℕ) : ℕ × ℕ :=
  Decimal.scaled magnitude.units one (-(magnitude.decade + 1 - (places + 1 : ℕ)))

theorem inPlaces_pos (magnitude : Magnitude) (places : ℕ) : 0 < (magnitude.inPlaces places).2 :=
  Nat.mul_pos one_pos (Nat.pow_pos (by decide))

theorem inPlaces_div (magnitude : Magnitude) (places : ℕ) :
    ((magnitude.inPlaces places).1 : ℚ) / (magnitude.inPlaces places).2 =
      magnitude.toRat * 10 ^ (places - magnitude.decade) := by
  have hexponent : -(magnitude.decade + 1 - (places + 1 : ℕ)) = places - magnitude.decade := by
    push_cast
    ring
  rw [inPlaces, Decimal.scaled_div, hexponent, toRat]

/-- In these units the magnitude has one digit more than there are places. -/
theorem inPlaces_bounds (hnonzero : magnitude.units ≠ 0) (places : ℕ) :
    10 ^ places ≤ (magnitude.inPlaces places).1 / (magnitude.inPlaces places).2 ∧
      (magnitude.inPlaces places).1 / (magnitude.inPlaces places).2 < 10 ^ (places + 1) := by
  obtain ⟨hlower, hupper⟩ := decade_spec hnonzero
  have hpos := magnitude.inPlaces_pos places
  have hpos' : (0 : ℚ) < (magnitude.inPlaces places).2 := by exact_mod_cast hpos
  have hscale : (0 : ℚ) < 10 ^ (places - magnitude.decade) := by positivity
  have hten : (10 : ℚ) ≠ 0 := by norm_num
  have hnext : magnitude.decade + 1 + (places - magnitude.decade) = (places + 1 : ℕ) := by
    push_cast
    ring
  have hlower' : (10 : ℚ) ^ places ≤
      (magnitude.inPlaces places).1 / (magnitude.inPlaces places).2 :=
    calc (10 : ℚ) ^ places = 10 ^ magnitude.decade * 10 ^ (places - magnitude.decade) := by
          rw [← zpow_add₀ hten, add_sub_cancel, zpow_natCast]
      _ ≤ magnitude.toRat * 10 ^ (places - magnitude.decade) :=
          mul_le_mul_of_nonneg_right hlower hscale.le
      _ = _ := (magnitude.inPlaces_div places).symm
  have hupper' : ((magnitude.inPlaces places).1 : ℚ) / (magnitude.inPlaces places).2 <
      10 ^ (places + 1) :=
    calc _ = magnitude.toRat * 10 ^ (places - magnitude.decade) := magnitude.inPlaces_div places
      _ < 10 ^ (magnitude.decade + 1) * 10 ^ (places - magnitude.decade) :=
          mul_lt_mul_of_pos_right hupper hscale
      _ = 10 ^ (places + 1) := by
          rw [← zpow_add₀ hten, hnext, zpow_natCast]
  rw [Nat.le_div_iff_mul_le hpos, Nat.div_lt_iff_lt_mul hpos]
  rw [le_div_iff₀ hpos'] at hlower'
  rw [div_lt_iff₀ hpos'] at hupper'
  exact ⟨by exact_mod_cast hlower', by exact_mod_cast hupper'⟩

/-- The digits tried first are those of the nearest number, then those on its other side. -/
theorem shortened?_eq (tie : Tie) (magnitude : Magnitude) (places : ℕ) :
    magnitude.shortened? tie (places + 1) =
      let below := (magnitude.inPlaces places).1 / (magnitude.inPlaces places).2
      let nearer := roundDiv tie (magnitude.inPlaces places).1 (magnitude.inPlaces places).2
      let farther := if nearer = below then below + 1 else below
      if magnitude.readsAs nearer (magnitude.decade - places) then
        some (.ofCoefficient (places + 1) nearer magnitude.decade)
      else if magnitude.readsAs farther (magnitude.decade - places) then
        some (.ofCoefficient (places + 1) farther magnitude.decade)
      else
        none := by
  have hexponent : magnitude.decade - places = magnitude.decade + 1 - (places + 1 : ℕ) := by
    push_cast
    ring
  rw [hexponent]
  rfl

/-- What is found has the given number of digits and reads back as the magnitude. -/
theorem exists_of_shortened? {number : Decimal.Scientific} (hnonzero : magnitude.units ≠ 0)
    (hnumber : magnitude.shortened? tie (places + 1) = some number) :
    ∃ coefficient, 10 ^ places ≤ coefficient ∧ coefficient ≤ 10 ^ (places + 1) ∧
      magnitude.readsAs coefficient (magnitude.decade - places) = true ∧
      number = .ofCoefficient (places + 1) coefficient magnitude.decade := by
  obtain ⟨hlower, hupper⟩ := inPlaces_bounds hnonzero places
  have hnearer := le_roundDiv tie (magnitude.inPlaces places).1 (magnitude.inPlaces places).2
  have hnearer' := roundDiv_le tie (magnitude.inPlaces places).1 (magnitude.inPlaces places).2
  rw [shortened?_eq] at hnumber
  dsimp only at hnumber
  generalize (magnitude.inPlaces places).1 / (magnitude.inPlaces places).2 = below at *
  generalize roundDiv tie (magnitude.inPlaces places).1 (magnitude.inPlaces places).2 = nearer at *
  generalize hother : (if nearer = below then below + 1 else below) = farther at hnumber
  have hfarther : below ≤ farther ∧ farther ≤ below + 1 := by
    rw [← hother]
    split <;> omega
  split at hnumber
  · rename_i hreads
    exact ⟨nearer, by omega, by omega, hreads, (Option.some.inj hnumber).symm⟩
  · split at hnumber
    · rename_i hreads
      exact ⟨farther, by omega, by omega, hreads, (Option.some.inj hnumber).symm⟩
    · cases hnumber

/-- **Seventeen digits are enough.**  The nearest number of seventeen digits is less than
`10 ^ -16 / 2` of the magnitude away from it. -/
theorem isSome_shortened?_seventeen (hnonzero : magnitude.units ≠ 0) :
    (magnitude.shortened? tie 17).isSome = true := by
  obtain ⟨hlower, -⟩ := decade_spec hnonzero
  have hclose := abs_roundDiv_sub_le tie (magnitude.inPlaces 16).1 (magnitude.inPlaces_pos 16)
  rw [inPlaces_div] at hclose
  rw [shortened?_eq]
  dsimp only
  generalize roundDiv tie (magnitude.inPlaces 16).1 (magnitude.inPlaces 16).2 = nearer at *
  have hscale : (0 : ℚ) < 10 ^ (magnitude.decade - (16 : ℕ)) := by positivity
  have hinverse : (10 : ℚ) ^ ((16 : ℕ) - magnitude.decade) *
      10 ^ (magnitude.decade - (16 : ℕ)) = 1 := by
    rw [← zpow_add₀ (by norm_num), sub_add_sub_cancel, sub_self, zpow_zero]
  have hsmall : (10 : ℚ) ^ (magnitude.decade - (16 : ℕ)) ≤ magnitude.toRat / 10 ^ (16 : ℕ) := by
    rw [zpow_sub₀ (by norm_num), zpow_natCast]
    exact div_le_div_of_nonneg_right hlower (by positivity)
  have hreads : magnitude.readsAs nearer (magnitude.decade - (16 : ℕ)) = true := by
    rw [readsAs, decide_eq_true_eq, ofDecimal_eq_nearestDecimal]
    apply nearestDecimal_eq_of_close
    have hpositive : 0 < magnitude.toRat := (by positivity : (0 : ℚ) < _).trans_le hlower
    have hscaled := mul_le_mul_of_nonneg_right hclose hscale.le
    rw [abs_sub_mul_of_pos hscale, mul_assoc magnitude.toRat, hinverse, mul_one] at hscaled
    linarith
  rw [if_pos hreads]
  rfl

end Magnitude

end Binary64

/-! ## Digits and the number that they denote -/

namespace Decimal

/-- The number that significant digits denote. -/
def Scientific.toRat (number : Scientific) : ℚ :=
  value number.digits * 10 ^ (number.exponent + 1 - number.digits.length)

/-- There is at least one significant digit. -/
structure Scientific.HasDigits (number : Scientific) : Prop where
  allDigits : AllDigits number.digits
  ne_nil : number.digits ≠ []

theorem hasDigits_ofCoefficient (places coefficient : ℕ) (exponent : ℤ) :
    (Scientific.ofCoefficient places coefficient exponent).HasDigits := by
  unfold Scientific.ofCoefficient
  split
  · exact ⟨allDigits_digits _, digits_ne_nil _⟩
  · exact ⟨allDigits_digits _, digits_ne_nil _⟩

/-- A carry into the next decade does not change the number. -/
theorem toRat_ofCoefficient {places coefficient : ℕ} (hlower : 10 ^ places ≤ coefficient)
    (hupper : coefficient ≤ 10 ^ (places + 1)) (exponent : ℤ) :
    (Scientific.ofCoefficient (places + 1) coefficient exponent).toRat =
      coefficient * 10 ^ (exponent - places) := by
  unfold Scientific.ofCoefficient
  split
  · rename_i hcarried
    have hlength := length_digits_eq (Nat.le_refl (10 ^ places))
      (Nat.pow_lt_pow_right (by decide) (Nat.lt_succ_self places))
    have hexponent : exponent + 1 + 1 - ((places + 1 : ℕ) : ℤ) = 1 + (exponent - places) := by
      push_cast
      ring
    rw [Scientific.toRat, Nat.add_sub_cancel, hlength, value_digits, hexponent,
      zpow_add₀ (by norm_num), zpow_one, hcarried]
    push_cast
    ring
  · rename_i hcarried
    have hlength := length_digits_eq hlower (Nat.lt_of_le_of_ne hupper hcarried)
    have hexponent : exponent + 1 - ((places + 1 : ℕ) : ℤ) = exponent - places := by
      push_cast
      ring
    rw [Scientific.toRat, hlength, value_digits, hexponent]

end Decimal

namespace Binary64.Magnitude

variable {magnitude : Magnitude}

/-- The shortest digits denote a number to which the magnitude is nearest. -/
theorem shortest_spec (tie : Tie) (hnonzero : magnitude.units ≠ 0) :
    (magnitude.shortest tie).HasDigits ∧
      IsNearest false (magnitude.shortest tie).toRat (.finite false magnitude) := by
  have hsome : (((List.range 17).map (· + 1)).findSome? (magnitude.shortened? tie)).isSome := by
    rw [List.findSome?_isSome_iff]
    exact ⟨17, by decide, isSome_shortened?_seventeen hnonzero⟩
  obtain ⟨number, hnumber⟩ := Option.isSome_iff_exists.mp hsome
  obtain ⟨place, hplace, hshortened⟩ := List.exists_of_findSome?_eq_some hnumber
  obtain ⟨places, -, rfl⟩ := List.mem_map.mp hplace
  obtain ⟨coefficient, hlower, hupper, hreads, rfl⟩ := exists_of_shortened? hnonzero hshortened
  rw [shortest, hnumber, Option.getD_some]
  refine ⟨Decimal.hasDigits_ofCoefficient _ _ _, ?_⟩
  rw [readsAs, decide_eq_true_eq, ofDecimal_eq_nearestDecimal] at hreads
  rw [Decimal.toRat_ofCoefficient hlower hupper, ← hreads]
  exact isNearest_nearestDecimal false coefficient _

end Binary64.Magnitude

end LetterMachine
