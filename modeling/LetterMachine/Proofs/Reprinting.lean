import LetterMachine.Proofs.NearestDoubles
import LetterMachine.Proofs.PrintedDoubles

/-!
# Printed doubles read back

A printed double has six digits, so that what is read back is in general another double.  Printed
again, it gives the same text all the same: `Binary64.sixDigits_toBinary64_ofToken`.

The double that is read is the one nearest to the number that the text denotes.  The double that was
printed is not nearer to that number, so whatever the spacing of doubles is, the one that is read is
rounded to the same six digits.  Only at a power of ten can it fall into the decade below, where the
sixth digit is worth less.  In fixed notation doubles lie too close together for that, and in
scientific notation a power of ten has no point and is not read as a double at all.
-/

namespace LetterMachine

/-! ## Rounding to six digits -/

namespace RoundsToSix

variable {value nearer : ℚ} {coefficient : ℕ} {exponent : ℤ}

theorem pos (hrounds : RoundsToSix value coefficient exponent) : 0 < value := by
  cases hrounds with
  | within hlower => exact lt_of_lt_of_le (by positivity) hlower
  | carried hlower => exact lt_of_lt_of_le (by positivity) hlower

/-- In units of the sixth digit, powers of ten are always the same numbers. -/
theorem zpow_mul_scale (exponent places : ℤ) :
    (10 : ℚ) ^ (exponent + places) * 10 ^ (5 - exponent) = 10 ^ (5 + places) := by
  rw [← zpow_add₀ (by norm_num)]
  congr 1
  ring

theorem nearestEven_of_nearer (hrounds : RoundsToSix value coefficient exponent)
    (hnearer : |nearer - coefficient * 10 ^ (exponent - 5)| ≤
      |value - coefficient * 10 ^ (exponent - 5)|) :
    NearestEven (nearer * 10 ^ (5 - exponent)) coefficient := by
  have hscale : (0 : ℚ) < 10 ^ (5 - exponent) := by positivity
  have hle := mul_le_mul_of_nonneg_right hnearer hscale.le
  rw [abs_sub_mul_of_pos hscale, abs_sub_mul_of_pos hscale, mul_assoc (coefficient : ℚ),
    ← zpow_add₀ (by norm_num), sub_add_sub_cancel, sub_self, zpow_zero, mul_one] at hle
  obtain ⟨hhalf, heven⟩ := hrounds.nearestEven
  exact ⟨hle.trans hhalf, fun heq => heven (le_antisymm hhalf (heq ▸ hle))⟩

/-- Just below a power of ten the sixth digit is worth less, and a number is rounded up to it from
half of that. -/
theorem of_lt_power (hless : nearer < 10 ^ exponent)
    (hclose : |nearer - 10 ^ exponent| ≤ 10 ^ exponent / 2000000) :
    RoundsToSix nearer 100000 exponent := by
  have hscale : (0 : ℚ) < 10 ^ (5 - exponent) := by positivity
  have hfirst := zpow_mul_scale exponent 0
  have hprevious := zpow_mul_scale exponent (-1)
  rw [← sub_eq_add_neg] at hprevious
  norm_num at hfirst hprevious
  have hscaled := mul_le_mul_of_nonneg_right hclose hscale.le
  rw [abs_sub_mul_of_pos hscale, hfirst, abs_le] at hscaled
  have hcarried : RoundsToSix nearer 100000 (exponent - 1 + 1) := by
    apply RoundsToSix.carried
    · apply le_of_mul_le_mul_right _ hscale
      linarith
    · rwa [sub_add_cancel]
    · have hfiner : (10 : ℚ) ^ (5 - (exponent - 1)) = 10 * 10 ^ (5 - exponent) := by
        rw [← zpow_one_add₀ (by norm_num)]
        congr 1
        ring
      rw [hfiner]
      refine ⟨?_, fun _ => by decide⟩
      rw [abs_le]
      push_cast
      constructor <;> linarith
  rwa [sub_add_cancel] at hcarried

/-- A number that is no farther from the rounded number is rounded to it as well.  Only just below a
power of ten it has to be nearer. -/
theorem of_nearer (hrounds : RoundsToSix value coefficient exponent)
    (hnearer : |nearer - coefficient * 10 ^ (exponent - 5)| ≤
      |value - coefficient * 10 ^ (exponent - 5)|)
    (hpower : coefficient = 100000 → |nearer - 10 ^ exponent| ≤ 10 ^ exponent / 2000000) :
    RoundsToSix nearer coefficient exponent := by
  have hnearest := hrounds.nearestEven_of_nearer hnearer
  obtain ⟨hbelow, habove⟩ := abs_le.mp hnearest.abs_sub_le
  obtain ⟨hleast, hgreatest⟩ := hrounds.bounds
  have hscale : (0 : ℚ) < 10 ^ (5 - exponent) := by positivity
  by_cases hwithin : 10 ^ exponent ≤ nearer
  · refine .within hwithin ?_ hnearest hgreatest
    have hgreatest' : (coefficient : ℚ) ≤ 999999 := by exact_mod_cast Nat.le_of_lt_succ hgreatest
    have hnext := zpow_mul_scale exponent 1
    norm_num at hnext
    apply lt_of_mul_lt_mul_right _ hscale.le
    linarith
  · -- Only from a power of ten can a number fall into the decade below.
    have hcoefficient : coefficient = 100000 := by
      have hless := mul_lt_mul_of_pos_right (not_le.mp hwithin) hscale
      have hfirst := zpow_mul_scale exponent 0
      norm_num at hfirst
      have hless' : (coefficient : ℚ) < 100001 := by linarith
      have hless'' : coefficient < 100001 := by exact_mod_cast hless'
      omega
    rw [hcoefficient]
    exact of_lt_power (not_le.mp hwithin) (hpower hcoefficient)

/-- A number is not more than half a digit below the rounded number. -/
theorem sub_half_mul_le (hrounds : RoundsToSix value coefficient exponent) :
    (coefficient - 1 / 2) * 10 ^ (exponent - 5) ≤ value := by
  have hdigit : (0 : ℚ) < 10 ^ (exponent - 5) := by positivity
  obtain ⟨hbelow, -⟩ := abs_le.mp hrounds.nearestEven.abs_sub_le
  have hscaled : (coefficient : ℚ) - 1 / 2 ≤ value * 10 ^ (5 - exponent) := by linarith
  have hproduct := mul_le_mul_of_nonneg_right hscaled hdigit.le
  rwa [mul_assoc, ← zpow_add₀ (by norm_num), sub_add_sub_cancel, sub_self, zpow_zero,
    mul_one] at hproduct

/-- What is less than half a digit above a number of six digits is not rounded above it. -/
theorem le_of_lt_half {limit : ℕ} {last : ℤ} (hrounds : RoundsToSix value coefficient exponent)
    (hleast : 100000 ≤ limit) (hgreatest : limit < 999990)
    (hless : value < (limit + 1 / 2) * 10 ^ (last - 5)) :
    (coefficient : ℚ) * 10 ^ (exponent - 5) ≤ limit * 10 ^ (last - 5) := by
  have hdigit : (0 : ℚ) < 10 ^ (exponent - 5) := by positivity
  have hdigit' : (0 : ℚ) < 10 ^ (last - 5) := by positivity
  have hnext (power : ℤ) : (10 : ℚ) ^ (power + 1 - 5) = 10 * 10 ^ (power - 5) := by
    rw [← zpow_one_add₀ (by norm_num)]
    congr 1
    ring
  obtain ⟨hfirst, hlast⟩ := hrounds.bounds
  have hfirst' : (100000 : ℚ) ≤ coefficient := by exact_mod_cast hfirst
  have hlast' : (coefficient : ℚ) ≤ 1000000 := by exact_mod_cast hlast.le
  have hleast' : (100000 : ℚ) ≤ limit := by exact_mod_cast hleast
  have hgreatest' : (limit : ℚ) ≤ 999989 := by exact_mod_cast Nat.le_of_lt_succ hgreatest
  have hbelow := hrounds.sub_half_mul_le
  rcases lt_trichotomy exponent last with hlt | rfl | hgt
  · calc (coefficient : ℚ) * 10 ^ (exponent - 5)
        ≤ 1000000 * 10 ^ (exponent - 5) := mul_le_mul_of_nonneg_right hlast' hdigit.le
      _ = 100000 * 10 ^ (exponent + 1 - 5) := by
          rw [hnext]
          ring
      _ ≤ 100000 * 10 ^ (last - 5) := by
          gcongr
          · norm_num
          · exact hlt
      _ ≤ limit * 10 ^ (last - 5) := mul_le_mul_of_nonneg_right hleast' hdigit'.le
  · have hcount : (coefficient : ℚ) - 1 / 2 < limit + 1 / 2 :=
      lt_of_mul_lt_mul_right (hbelow.trans_lt hless) hdigit.le
    have hcount' : (coefficient : ℚ) < limit + 1 := by linarith
    have hcount'' : coefficient < limit + 1 := by exact_mod_cast hcount'
    have hle : (coefficient : ℚ) ≤ limit := by exact_mod_cast Nat.le_of_lt_succ hcount''
    exact mul_le_mul_of_nonneg_right hle hdigit.le
  · have hpower : (10 : ℚ) ^ (last + 1 - 5) ≤ 10 ^ (exponent - 5) := by
      gcongr
      · norm_num
      · exact hgt
    rw [hnext] at hpower
    have hlarge : 99999 * 10 ^ (exponent - 5) ≤ (coefficient - 1 / 2) * (10 : ℚ) ^ (exponent - 5) :=
      mul_le_mul_of_nonneg_right (by linarith) hdigit.le
    have hsmall : (limit + 1 / 2) * (10 : ℚ) ^ (last - 5) ≤ 999990 * 10 ^ (last - 5) :=
      mul_le_mul_of_nonneg_right (by linarith) hdigit'.le
    linarith

end RoundsToSix

namespace Decimal

/-- The text is known from the rounded number. -/
theorem general_eq {numerator denominator numerator' denominator' coefficient : ℕ} {exponent : ℤ}
    (hnumerator : 0 < numerator) (hdenominator : 0 < denominator)
    (hnumerator' : 0 < numerator') (hdenominator' : 0 < denominator')
    (hrounds : RoundsToSix ((numerator : ℚ) / denominator) coefficient exponent)
    (hrounds' : RoundsToSix ((numerator' : ℚ) / denominator') coefficient exponent) :
    general numerator denominator = general numerator' denominator' := by
  unfold general
  rw [rounded_eq hnumerator hdenominator hrounds, rounded_eq hnumerator' hdenominator' hrounds']
  dsimp only
  split
  · rename_i hrange
    have hexponent : exponent ≤ 5 := by omega
    rw [positional, positional, roundDiv_places hdenominator hrounds hexponent,
      roundDiv_places hdenominator' hrounds' hexponent]
  · rfl

/-- A power of ten in scientific notation has no digits behind the first, and no point. -/
theorem point_not_mem_general {numerator denominator : ℕ} {exponent : ℤ}
    (hnumerator : 0 < numerator) (hdenominator : 0 < denominator)
    (hrounds : RoundsToSix ((numerator : ℚ) / denominator) 100000 exponent)
    (hrange : exponent < -4 ∨ 6 ≤ exponent) : '.' ∉ general numerator denominator := by
  obtain ⟨first, fraction, hdigits, -, hgeneral⟩ :=
    exists_general_of_scientific hnumerator hdenominator hrounds hrange
  have hpower : digits 100000 = '1' :: List.replicate 5 '0' :=
    digits_mul_ten_pow Nat.one_pos 5
  obtain ⟨rfl, rfl⟩ := List.cons.inj (hpower.symm.trans hdigits)
  rw [hgeneral, withoutTrailingZeros_replicate]
  intro hmem
  simp only [pointed, List.isEmpty_nil, if_true, List.singleton_append, List.mem_cons] at hmem
  rcases hmem with hfirst | hmark | hsign | hpower
  · exact absurd hfirst (by decide)
  · exact absurd hmark (by decide)
  · split at hsign <;> exact absurd hsign (by decide)
  · exact absurd (allDigits_padded 2 exponent.natAbs '.' hpower) (by decide)

/-- A text without an exponent is in fixed notation. -/
theorem SixDigitText.fixedText {negative : Bool} {coefficient : ℕ} {exponent : ℤ}
    {text : List Char} (htext : SixDigitText negative coefficient exponent text)
    (hmark : 'e' ∉ text) : FixedText text := by
  rw [htext.fixed_iff]
  by_contra hrange
  exact hmark (htext.scientific_iff.mpr (by omega)).mark_mem

theorem signed_mul_zpow_inj {negative negative' : Bool} {coefficient coefficient' : ℕ}
    {exponent exponent' : ℤ} (hpositive : 0 < coefficient')
    (heq : ((signed negative coefficient : ℤ) : ℚ) * 10 ^ exponent =
      (signed negative' coefficient' : ℤ) * 10 ^ exponent') :
    negative = negative' ∧ (coefficient : ℚ) * 10 ^ exponent = coefficient' * 10 ^ exponent' := by
  have hpositive' : (0 : ℚ) < coefficient' := by exact_mod_cast hpositive
  have hless : (0 : ℚ) < coefficient' * 10 ^ exponent' := by positivity
  have hle : (0 : ℚ) ≤ coefficient * 10 ^ exponent := by positivity
  cases negative <;> cases negative' <;> simp [signed] at heq ⊢
  · exact heq
  · linarith
  · linarith
  · exact heq

end Decimal

/-! ## The nearest double -/

namespace Binary64

/-- The double nearest to a number, with a sign. -/
def IsNearest (negative : Bool) (number : ℚ) (double : Binary64) : Prop :=
  ∃ numerator denominator : ℕ, 0 < denominator ∧
    (numerator : ℚ) / denominator = number * one ∧ double = ofUnits negative numerator denominator

theorem cast_one_pos : (0 : ℚ) < one := by
  exact_mod_cast one_pos

theorem zpow_eq_cast (places : ℕ) : (10 : ℚ) ^ (places : ℤ) = (10 ^ places : ℕ) := by
  rw [zpow_natCast, Nat.cast_pow, Nat.cast_ofNat]

/-- The sixth digit of the largest double can be rounded up no further. -/
theorem Magnitude.toRat_lt (magnitude : Magnitude) :
    magnitude.toRat < ((179769 : ℕ) + 1 / 2) * 10 ^ ((308 : ℤ) - 5) := by
  have hplaces : (308 : ℤ) - 5 = (303 : ℕ) := by norm_num
  have hlimit : 2 * rangeLimit ≤ 359539 * 10 ^ (303 : ℕ) * one := by decide +kernel
  have hunits : 2 * magnitude.units < 359539 * 10 ^ (303 : ℕ) * one :=
    Nat.lt_of_lt_of_le (Nat.mul_lt_mul_of_pos_left magnitude.inRange two_pos) hlimit
  rw [hplaces, zpow_eq_cast, Magnitude.toRat, div_lt_iff₀ cast_one_pos]
  generalize 10 ^ (303 : ℕ) = power at hunits ⊢
  have hunits' : (2 : ℚ) * magnitude.units < 359539 * power * one := by exact_mod_cast hunits
  push_cast
  linarith

theorem rounded_le_largest {magnitude : Magnitude} {coefficient : ℕ} {exponent : ℤ}
    (hrounds : RoundsToSix magnitude.toRat coefficient exponent) :
    (coefficient : ℚ) * 10 ^ (exponent - 5) * one ≤ largest := by
  have hlargest : 179769 * 10 ^ (303 : ℕ) * one ≤ largest := by decide +kernel
  have hle := hrounds.le_of_lt_half (by decide) (by decide) magnitude.toRat_lt
  have hplaces : (308 : ℤ) - 5 = (303 : ℕ) := by norm_num
  rw [hplaces, zpow_eq_cast] at hle
  generalize 10 ^ (303 : ℕ) = power at hlargest hle
  calc (coefficient : ℚ) * 10 ^ (exponent - 5) * one
      ≤ (179769 : ℕ) * power * one := mul_le_mul_of_nonneg_right hle cast_one_pos.le
    _ ≤ largest := by exact_mod_cast hlargest

theorem abs_div_one_sub {numerator denominator : ℕ} {number : ℚ}
    (hfraction : (numerator : ℚ) / denominator = number * one) (count : ℕ) :
    |(count : ℚ) / one - number| = |(count : ℚ) - numerator / denominator| / one := by
  rw [eq_div_iff cast_one_pos.ne', abs_sub_mul_of_pos cast_one_pos,
    div_mul_cancel₀ _ cast_one_pos.ne', hfraction]

/-- From the smallest power of ten in fixed notation on, doubles lie close together. -/
theorem abs_nearestUnits_sub_power_le {numerator denominator : ℕ} {exponent : ℤ}
    (hpos : 0 < denominator) (hleast : -4 ≤ exponent)
    (hfraction : (numerator : ℚ) / denominator = 10 ^ exponent * one) :
    |(nearestUnits numerator denominator : ℚ) / one - 10 ^ exponent| ≤
      10 ^ exponent / 2000000 := by
  have hpower : (0 : ℚ) < 10 ^ exponent := by positivity
  have hnormal : 2 ^ (52 : ℕ) ≤ numerator / denominator := by
    have hfour : 2 ^ (52 : ℕ) * 10 ^ (4 : ℕ) ≤ one := by decide +kernel
    have hfour' : (2 : ℚ) ^ 52 * 10 ^ 4 ≤ one := by exact_mod_cast hfour
    have hleast' : (10 : ℚ) ^ (-4 : ℤ) ≤ 10 ^ exponent := zpow_le_zpow_right₀ (by norm_num) hleast
    have hquotient : (2 : ℚ) ^ 52 ≤ numerator / denominator := by
      calc (2 : ℚ) ^ 52 = (10 : ℚ) ^ (-4 : ℤ) * ((2 : ℚ) ^ 52 * (10 : ℚ) ^ 4) := by norm_num
        _ ≤ (10 : ℚ) ^ exponent * one := mul_le_mul hleast' hfour' (by norm_num) hpower.le
        _ = numerator / denominator := hfraction.symm
    rw [le_div_iff₀ (by exact_mod_cast hpos)] at hquotient
    rw [Nat.le_div_iff_mul_le hpos]
    exact_mod_cast hquotient
  have hmoved := abs_nearestUnits_sub_le_of_normal numerator hpos hnormal
  rw [abs_div_one_sub hfraction, div_le_iff₀ cast_one_pos]
  rw [hfraction] at hmoved ⊢
  generalize (10 : ℚ) ^ exponent = power at hmoved hpower ⊢
  have hproduct := mul_pos hpower cast_one_pos
  linarith

/-- The double nearest to a rounded number is rounded to the same number.  A power of ten must not
be among the numbers where doubles are sparse. -/
theorem exists_finite_of_isNearest {negative : Bool} {magnitude : Magnitude} {coefficient : ℕ}
    {exponent : ℤ} {double : Binary64}
    (hrounds : RoundsToSix magnitude.toRat coefficient exponent)
    (hpower : coefficient = 100000 → -4 ≤ exponent)
    (hnearest : IsNearest negative (coefficient * 10 ^ (exponent - 5)) double) :
    ∃ nearer : Magnitude, double = .finite negative nearer ∧
      RoundsToSix nearer.toRat coefficient exponent := by
  obtain ⟨numerator, denominator, hpos, hfraction, hdouble⟩ := hnearest
  have hrange : nearestUnits numerator denominator < rangeLimit := by
    apply nearestUnits_lt_rangeLimit numerator hpos
    rw [hfraction]
    exact rounded_le_largest hrounds
  have hfinite : double =
      .finite negative ⟨_, onGrid_nearestUnits numerator denominator, hrange⟩ := by
    rw [hdouble, ofUnits, dif_pos hrange]
  refine ⟨_, hfinite, hrounds.of_nearer ?_ fun hcoefficient => ?_⟩
  · rw [Magnitude.toRat, Magnitude.toRat, abs_div_one_sub hfraction, abs_div_one_sub hfraction]
    exact div_le_div_of_nonneg_right
      (abs_nearestUnits_sub_le numerator hpos magnitude.onGrid) cast_one_pos.le
  · have hten : ((coefficient : ℕ) : ℚ) * 10 ^ (exponent - 5) = 10 ^ exponent := by
      rw [hcoefficient, zpow_sub₀ (by norm_num)]
      norm_num
      ring
    rw [hten] at hfraction
    exact abs_nearestUnits_sub_power_le hpos (hpower hcoefficient) hfraction

end Binary64

/-! ## Printed doubles read back -/

namespace Value

open Decimal

variable {negative : Bool} {coefficient : ℕ} {exponent : ℤ} {text : List Char}

/-- A text with a point is read as the nearest double. -/
theorem toBinary64_ofToken_of_point (htext : SixDigitText negative coefficient exponent text)
    (hpositive : 0 < coefficient) (hpoint : '.' ∈ text) :
    ∃ double, Binary64.IsNearest negative (coefficient * 10 ^ (exponent - 5)) double ∧
      (double ≠ .zero true → (ofToken text).toBinary64 = double) := by
  obtain ⟨number, hnumber, hvalue⟩ := (htext.denotes_iff _).mpr rfl
  obtain ⟨hsign, hmagnitude⟩ := signed_mul_zpow_inj hpositive hvalue
  refine ⟨number.nearest, ?_, fun hnonzero => ?_⟩
  · refine ⟨(scaled (number.coefficient * Binary64.one) 1 number.exponent).1,
      (scaled (number.coefficient * Binary64.one) 1 number.exponent).2, ?_, ?_, ?_⟩
    · exact Nat.mul_pos Nat.one_pos (Nat.pow_pos (by decide))
    · rw [scaled_div, ← hmagnitude]
      push_cast
      ring
    · rw [Number.nearest, Binary64.nearestDecimal, hsign]
  · rw [ofToken_of_point hpoint, finds_readDecimal?.exact hnumber, Option.map_some, ofNumber?,
      Option.map_some, Option.getD_some, toBinary64_ofBinary64, if_neg hnonzero]

/-- A text without a point and without an exponent is an integer. -/
theorem exists_whole_of_fixed (htext : SixDigitText negative coefficient exponent text)
    (hpositive : 0 < coefficient) (hlast : coefficient < 1000000) (hfixed : FixedText text)
    (hpoint : '.' ∉ text) :
    ∃ whole : ℕ, 0 < whole ∧ whole < 1000000 ∧ (whole : ℚ) = coefficient * 10 ^ (exponent - 5) ∧
      text = sign negative ++ digits whole := by
  obtain ⟨-, hexponent⟩ := htext.fixed_iff.mp hfixed
  obtain ⟨negative', whole, hmantissa⟩ := hfixed
  cases hmantissa with
  | pointed =>
      apply absurd _ hpoint
      exact List.mem_append_right _ (List.mem_append_right _ List.mem_cons_self)
  | whole =>
      have hdecimal := DecimalText.mk (signText_sign negative')
        (.whole (allDigits_digits whole) (digits_ne_nil whole)) .missing
      rw [List.append_nil, value_digits] at hdecimal
      have hvalue := (htext.denotes_iff _).mp ⟨_, hdecimal, rfl⟩
      obtain ⟨rfl, hmagnitude⟩ := signed_mul_zpow_inj hpositive hvalue
      rw [Nat.cast_zero, sub_zero, zpow_zero, mul_one] at hmagnitude
      refine ⟨whole, ?_, ?_, hmagnitude, rfl⟩
      · have hproduct : (0 : ℚ) < coefficient * 10 ^ (exponent - 5) := by positivity
        rw [← hmagnitude] at hproduct
        exact_mod_cast hproduct
      · have hpower : (10 : ℚ) ^ (exponent - 5) ≤ 1 :=
          zpow_le_one_of_nonpos₀ (by norm_num) (by omega)
        have hproduct := mul_le_mul_of_nonneg_left hpower (Nat.cast_nonneg' coefficient)
        rw [← hmagnitude, mul_one] at hproduct
        exact Nat.lt_of_le_of_lt (by exact_mod_cast hproduct) hlast

theorem ofInt_signed (negative : Bool) {whole : ℕ} (hpositive : 0 < whole) :
    Binary64.ofInt (signed negative whole) =
      Binary64.ofUnits negative (whole * Binary64.one) 1 := by
  have hsign : decide (signed negative whole < 0) = negative := by
    cases negative <;> simp [signed, hpositive]
  have hmagnitude : (signed negative whole).natAbs = whole := by
    cases negative <;> simp [signed]
  rw [Binary64.ofInt, hsign, hmagnitude]

/-- Such a text is read as that integer. -/
theorem isNearest_ofToken_of_fixed (htext : SixDigitText negative coefficient exponent text)
    (hpositive : 0 < coefficient) (hlast : coefficient < 1000000) (hfixed : FixedText text)
    (hpoint : '.' ∉ text) :
    Binary64.IsNearest negative (coefficient * 10 ^ (exponent - 5)) (ofToken text).toBinary64 := by
  obtain ⟨whole, hwhole, hless, hmagnitude, rfl⟩ :=
    exists_whole_of_fixed htext hpositive hlast hfixed hpoint
  have hinteger := IntegerText.mk (signText_sign negative) (allDigits_digits whole)
    (digits_ne_nil whole)
  have hrange : (Int64.ofInt (signed negative whole)).toInt = signed negative whole := by
    cases negative
    all_goals
      simp only [signed]
      exact Int64.toInt_ofInt_of_le (by omega) (by omega)
  rw [value_digits, ← hrange] at hinteger
  rw [ofToken_of_integerText hinteger, toBinary64, hrange, ofInt_signed negative hwhole,
    ← hmagnitude]
  refine ⟨whole * Binary64.one, 1, Nat.one_pos, ?_, rfl⟩
  push_cast
  ring

/-- What is read of a text is the nearest double to the number that it denotes.  Negative zero would
lose its sign. -/
theorem exists_isNearest_ofToken (htext : SixDigitText negative coefficient exponent text)
    (hpositive : 0 < coefficient) (hlast : coefficient < 1000000)
    (hlayout : '.' ∈ text ∨ 'e' ∉ text) :
    ∃ double, Binary64.IsNearest negative (coefficient * 10 ^ (exponent - 5)) double ∧
      (double ≠ .zero true → (ofToken text).toBinary64 = double) := by
  by_cases hpoint : '.' ∈ text
  · exact toBinary64_ofToken_of_point htext hpositive hpoint
  · have hfixed := htext.fixedText (hlayout.resolve_left hpoint)
    exact ⟨_, isNearest_ofToken_of_fixed htext hpositive hlast hfixed hpoint, fun _ => rfl⟩

end Value

namespace Binary64

/-- **A printed double, read back, is printed alike.**  Only a text with an exponent and without a
point is left out: what is read of it is the integer before the exponent. -/
theorem sixDigits_toBinary64_ofToken (negative : Bool) (magnitude : Magnitude)
    (hnonzero : magnitude.units ≠ 0)
    (hlayout : '.' ∈ sixDigits (.finite negative magnitude) ∨
      'e' ∉ sixDigits (.finite negative magnitude)) :
    (Value.ofToken (sixDigits (.finite negative magnitude))).toBinary64.sixDigits =
      sixDigits (.finite negative magnitude) := by
  obtain ⟨coefficient, exponent, hrounds, -, hfirst, hlast, htext⟩ :=
    sixDigits_exact negative magnitude hnonzero
  have hpositive : 0 < magnitude.units := Nat.pos_of_ne_zero hnonzero
  have hcoefficient : 0 < coefficient := by omega
  have hpower : coefficient = 100000 → -4 ≤ exponent := by
    rintro rfl
    by_contra hless
    have hrange : exponent < -4 ∨ 6 ≤ exponent := Or.inl (not_le.mp hless)
    have hpoint : '.' ∉ sixDigits (.finite negative magnitude) := by
      rw [sixDigits, if_neg hnonzero, List.mem_append, not_or]
      refine ⟨?_, Decimal.point_not_mem_general hpositive one_pos hrounds hrange⟩
      cases negative <;> decide
    have hfixed := htext.fixedText (hlayout.resolve_left hpoint)
    exact (htext.scientific_iff.mpr hrange).not_fixedText hfixed
  obtain ⟨double, hnearest, hread⟩ :=
    Value.exists_isNearest_ofToken htext hcoefficient hlast hlayout
  obtain ⟨nearer, hdouble, hrounds'⟩ := exists_finite_of_isNearest hrounds hpower hnearest
  have hnonzero' : nearer.units ≠ 0 := by
    intro hzero
    have hnearer := hrounds'.pos
    rw [Magnitude.toRat, hzero, Nat.cast_zero, zero_div] at hnearer
    exact lt_irrefl 0 hnearer
  have hdouble' : double ≠ zero true := by
    rw [hdouble]
    exact fun hzero => hnonzero' (finite_eq_zero_iff.mp hzero).2
  rw [hread hdouble', hdouble, sixDigits, sixDigits, if_neg hnonzero, if_neg hnonzero',
    Decimal.general_eq hpositive one_pos (Nat.pos_of_ne_zero hnonzero') one_pos hrounds hrounds']

/-- The smallest double is printed with more digits than it has.  They denote another number, to
which it is the nearest double all the same. -/
theorem sixDigits_toBinary64_ofToken_of_smallest :
    let smallest : Binary64 := .finite true ⟨1, by decide, by decide +kernel⟩
    smallest.sixDigits = ['-', '4', '.', '9', '4', '0', '6', '6', 'e', '-', '3', '2', '4'] ∧
      (Value.ofToken smallest.sixDigits).toBinary64.sixDigits = smallest.sixDigits :=
  ⟨by decide +kernel, sixDigits_toBinary64_ofToken true _ (by decide) (Or.inl (by decide +kernel))⟩

end Binary64

end LetterMachine
