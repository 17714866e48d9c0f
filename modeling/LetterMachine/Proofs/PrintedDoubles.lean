import LetterMachine.Proofs.Numerals
import LetterMachine.Proofs.SignificantDigits
import Mathlib.Data.List.DropRight

/-!
# Printed doubles

A finite double other than zero is printed as a numeral, and `Binary64.sixDigits_exact` says which
number the numeral denotes and in which notation it is: exactly the double rounded to six
significant digits, in fixed notation if the exponent of the rounded number is at least minus four
and less than six.

The zeros at the end of a fraction are not printed.  The digits that are left denote a smaller whole
number, and as there are fewer of them behind the point, the numeral denotes the same number.
-/

namespace LetterMachine

namespace Decimal

/-! ## Digits and their values -/

theorem value_append (front back : List Char) :
    value (front ++ back) = value front * 10 ^ back.length + value back := by
  rw [value, Nat.ofDigitChars_append, Nat.ofDigitChars_eq_ofDigitChars_zero, Nat.mul_comm]
  rfl

theorem value_replicate_zero (count : ℕ) : value (List.replicate count '0') = 0 := by
  induction count with
  | zero => rfl
  | succ count ih =>
      rw [List.replicate_succ, ← List.singleton_append, value_append, ih, Nat.add_zero]
      exact Nat.zero_mul _

theorem value_padded (width number : ℕ) : value (padded width number) = number := by
  rw [padded, value_append, value_replicate_zero, value_digits, Nat.zero_mul, Nat.zero_add]

theorem allDigits_digits (number : ℕ) : AllDigits (digits number) :=
  fun _ hmem => isDigit_of_mem_digits hmem

theorem allDigits_padded (width number : ℕ) : AllDigits (padded width number) := by
  intro c hmem
  rcases List.mem_append.mp hmem with hzero | hdigit
  · rw [List.eq_of_mem_replicate hzero]
    rfl
  · exact isDigit_of_mem_digits hdigit

theorem digits_ne_nil (number : ℕ) : digits number ≠ [] :=
  List.ne_nil_of_length_pos Nat.length_toDigits_pos

theorem le_length_padded (width number : ℕ) : width ≤ (padded width number).length := by
  rw [padded, List.length_append, List.length_replicate]
  omega

/-- The last digit is the remainder. -/
theorem digits_append_digits {number digit : ℕ} (hnumber : 0 < number) (hdigit : digit < 10) :
    digits (10 * number + digit) = digits number ++ digits digit :=
  (Nat.toDigits_append_toDigits (by decide) hnumber hdigit).symm

/-- Multiplying by a power of ten appends zeros. -/
theorem digits_mul_ten_pow {number : ℕ} (hnumber : 0 < number) (places : ℕ) :
    digits (number * 10 ^ places) = digits number ++ List.replicate places '0' := by
  induction places with
  | zero => simp
  | succ places ih =>
      have hpositive : 0 < number * 10 ^ places := Nat.mul_pos hnumber (Nat.pow_pos (by decide))
      have happend := digits_append_digits hpositive (by decide : 0 < 10)
      rw [Nat.pow_succ, ← Nat.mul_assoc, Nat.mul_comm _ 10, List.replicate_succ',
        ← List.append_assoc, ← ih]
      exact happend

theorem length_digits_of_lt {digit : ℕ} (hdigit : digit < 10) : (digits digit).length = 1 := by
  rw [digits, Nat.toDigits_of_lt_base hdigit]
  rfl

/-- The last digit of a padded number is the remainder. -/
theorem padded_succ (width number : ℕ) :
    padded (width + 2) number = padded (width + 1) (number / 10) ++ digits (number % 10) := by
  rcases Nat.lt_or_ge number 10 with hsmall | hlarge
  · rw [Nat.div_eq_of_lt hsmall, Nat.mod_eq_of_lt hsmall, padded, length_digits_of_lt hsmall]
    simp [padded, digits, List.replicate_succ']
  · have hlast := digits_append_digits (Nat.div_pos hlarge (by decide))
      (Nat.mod_lt number (by decide))
    rw [Nat.div_add_mod] at hlast
    have hlength := congrArg List.length hlast
    rw [List.length_append, length_digits_of_lt (Nat.mod_lt number (by decide))] at hlength
    rw [padded, padded, hlength, hlast, ← List.append_assoc,
      show width + 2 = width + 1 + 1 from rfl, Nat.add_sub_add_right]

/-- The digits of a padded number before the last ones are those of the quotient. -/
theorem exists_padded_eq_append (places number : ℕ) :
    ∃ fraction, padded (places + 1) number = digits (number / 10 ^ places) ++ fraction ∧
      fraction.length = places := by
  induction places generalizing number with
  | zero =>
      refine ⟨[], ?_, rfl⟩
      have hpositive : 0 < (digits number).length := Nat.length_toDigits_pos
      have hnone : 0 + 1 - (digits number).length = 0 := by omega
      rw [padded, hnone, Nat.pow_zero, Nat.div_one, List.append_nil]
      rfl
  | succ places ih =>
      obtain ⟨fraction, hfraction, hlength⟩ := ih (number / 10)
      refine ⟨fraction ++ digits (number % 10), ?_, ?_⟩
      · rw [padded_succ, hfraction, Nat.div_div_eq_div_mul, Nat.pow_succ, Nat.mul_comm 10,
          List.append_assoc]
      · rw [List.length_append, hlength, length_digits_of_lt (Nat.mod_lt number (by decide))]

/-! ## Trailing zeros -/

theorem exists_eq_append_zeros (fraction : List Char) :
    ∃ count, fraction = withoutTrailingZeros fraction ++ List.replicate count '0' := by
  refine ⟨(fraction.rtakeWhile (· == '0')).length, ?_⟩
  have hzeros : fraction.rtakeWhile (· == '0') =
      List.replicate (fraction.rtakeWhile (· == '0')).length '0' := by
    apply List.eq_replicate_of_mem
    intro c hmem
    simpa using List.mem_rtakeWhile_imp hmem
  rw [← hzeros]
  exact List.rdropWhile_append_rtakeWhile.symm

theorem withoutTrailingZeros_replicate (count : ℕ) :
    withoutTrailingZeros (List.replicate count '0') = [] := by
  apply List.rdropWhile_eq_nil_iff.mpr
  intro c hmem
  rw [List.eq_of_mem_replicate hmem]
  rfl

theorem getLast_withoutTrailingZeros {fraction : List Char}
    (hnonempty : withoutTrailingZeros fraction ≠ []) :
    (withoutTrailingZeros fraction).getLast hnonempty ≠ '0' := by
  intro hzero
  apply List.rdropWhile_last_not (· == '0') fraction hnonempty
  exact beq_iff_eq.mpr hzero

theorem allDigits_withoutTrailingZeros {fraction : List Char} (hfraction : AllDigits fraction) :
    AllDigits (withoutTrailingZeros fraction) :=
  fun c hmem => hfraction c ((List.rdropWhile_prefix _ _).subset hmem)

/-! ## Notations -/

/-- Digits before a point, and behind it a fraction that does not end in zero; or the digits alone,
without a point. -/
inductive TrimmedText (whole : List Char) : List Char → Prop where
  | whole : TrimmedText whole whole
  | pointed {fraction : List Char} (hfraction : AllDigits fraction) (hnonempty : fraction ≠ [])
      (hlast : fraction.getLast hnonempty ≠ '0') : TrimmedText whole (whole ++ '.' :: fraction)

/-- Fixed notation. -/
inductive FixedText : List Char → Prop where
  | mk (negative : Bool) (whole : ℕ) {mantissa : List Char}
      (hmantissa : TrimmedText (digits whole) mantissa) : FixedText (sign negative ++ mantissa)

/-- Scientific notation, with its exponent: one digit before the point, and a sign and at least two
digits in the exponent. -/
inductive ScientificText : List Char → ℤ → Prop where
  | mk (negative : Bool) {first : Char} {mantissa power : List Char} {exponent : ℤ}
      (hfirst : first.isDigit = true) (hmantissa : TrimmedText [first] mantissa)
      (hpower : AllDigits power) (htwo : 2 ≤ power.length)
      (hexponent : value power = exponent.natAbs) :
      ScientificText
        (sign negative ++ mantissa ++ 'e' :: (if exponent < 0 then '-' else '+') :: power) exponent

theorem trimmedText_pointed (whole : List Char) {fraction : List Char}
    (hfraction : AllDigits fraction) :
    TrimmedText whole (pointed whole (withoutTrailingZeros fraction)) := by
  unfold pointed
  split
  · exact .whole
  · rename_i hnonempty
    rw [List.isEmpty_iff] at hnonempty
    exact .pointed (allDigits_withoutTrailingZeros hfraction) hnonempty
      (getLast_withoutTrailingZeros hnonempty)

theorem TrimmedText.not_mem_of_digits {whole text : List Char} (htext : TrimmedText whole text)
    (hwhole : AllDigits whole) : 'e' ∉ text := by
  have hdigits : ∀ {digits}, AllDigits digits → 'e' ∉ digits := by
    intro digits hdigits hmem
    cases hdigits 'e' hmem
  cases htext with
  | whole => exact hdigits hwhole
  | pointed hfraction =>
      rw [List.mem_append, List.mem_cons, not_or, not_or]
      exact ⟨hdigits hwhole, by decide, hdigits hfraction⟩

theorem FixedText.not_mem {text : List Char} (htext : FixedText text) : 'e' ∉ text := by
  cases htext with
  | mk negative whole hmantissa =>
      rw [List.mem_append, not_or]
      refine ⟨?_, hmantissa.not_mem_of_digits (allDigits_digits whole)⟩
      cases negative <;> decide

theorem ScientificText.mark_mem {text : List Char} {exponent : ℤ}
    (htext : ScientificText text exponent) : 'e' ∈ text := by
  cases htext with
  | mk => exact List.mem_append_right _ List.mem_cons_self

/-- No numeral is in both notations. -/
theorem ScientificText.not_fixedText {text : List Char} {exponent : ℤ}
    (htext : ScientificText text exponent) : ¬FixedText text :=
  fun hfixed => hfixed.not_mem htext.mark_mem

/-! ## What a numeral denotes -/

/-- The number as a rational number. -/
def Number.toRat (number : Number) : ℚ :=
  (signed number.negative number.coefficient : ℤ) * 10 ^ number.exponent

/-- A numeral denotes a rational number. -/
def Denotes (text : List Char) (number : ℚ) : Prop :=
  ∃ parts, DecimalText text parts ∧ parts.toRat = number

theorem Denotes.unique {text : List Char} {number other : ℚ} (hnumber : Denotes text number)
    (hother : Denotes text other) : number = other := by
  obtain ⟨parts, hparts, rfl⟩ := hnumber
  obtain ⟨parts', hparts', rfl⟩ := hother
  rw [finds_readDecimal?.rightUnique hparts hparts']

theorem Denotes.iff_eq {text : List Char} {number : ℚ} (hnumber : Denotes text number) (other : ℚ) :
    Denotes text other ↔ other = number := by
  constructor
  · exact fun hother => hother.unique hnumber
  · rintro rfl
    exact hnumber

theorem signed_mul (negative : Bool) (magnitude factor : ℕ) :
    signed negative (magnitude * factor) = signed negative magnitude * factor := by
  cases negative
  · exact Nat.cast_mul magnitude factor
  · simp [signed]

theorem signText_sign (negative : Bool) : SignText (sign negative) negative := by
  cases negative
  · exact .missing
  · exact .minus

theorem powerText_padded (exponent : ℤ) :
    PowerText ('e' :: (if exponent < 0 then '-' else '+') :: padded 2 exponent.natAbs)
      exponent := by
  have hnonempty : padded 2 exponent.natAbs ≠ [] := by
    apply List.ne_nil_of_length_pos
    exact Nat.lt_of_lt_of_le (by decide) (le_length_padded 2 exponent.natAbs)
  have hpower := allDigits_padded 2 exponent.natAbs
  apply PowerText.marked (Or.inl rfl)
  split
  · rename_i hnegative
    have hinteger := IntegerText.mk .minus hpower hnonempty
    have hvalue : signed true exponent.natAbs = exponent := by
      simp only [signed, if_true]
      omega
    rwa [value_padded, hvalue] at hinteger
  · rename_i hnonneg
    have hinteger := IntegerText.mk .plus hpower hnonempty
    have hvalue : signed false exponent.natAbs = exponent :=
      Int.natAbs_of_nonneg (not_lt.mp hnonneg)
    rwa [value_padded, hvalue] at hinteger

theorem mantissaText_pointed {whole fraction : List Char} (hwhole : AllDigits whole)
    (hnonempty : whole ≠ []) (hfraction : AllDigits fraction) :
    MantissaText (pointed whole fraction) (whole ++ fraction) fraction.length := by
  cases fraction with
  | nil =>
      rw [List.append_nil]
      exact .whole hwhole hnonempty
  | cons first rest => exact .pointed hwhole hnonempty hfraction

/-- Without the zeros at the end of the fraction, a numeral denotes the same number. -/
theorem denotes_pointed (negative : Bool) {whole fraction power : List Char} {exponent : ℤ}
    (hwhole : AllDigits whole) (hnonempty : whole ≠ []) (hfraction : AllDigits fraction)
    (hpower : PowerText power exponent) :
    Denotes (sign negative ++ pointed whole (withoutTrailingZeros fraction) ++ power)
      ((signed negative (value (whole ++ fraction)) : ℤ) * 10 ^ (exponent - fraction.length)) := by
  obtain ⟨count, hcount⟩ := exists_eq_append_zeros fraction
  have htrimmed := allDigits_withoutTrailingZeros hfraction
  generalize withoutTrailingZeros fraction = trimmed at hcount htrimmed
  subst hcount
  refine ⟨_, .mk (signText_sign negative) (mantissaText_pointed hwhole hnonempty htrimmed) hpower,
    ?_⟩
  generalize hshown : exponent - (trimmed.length : ℤ) = shown
  have hvalue : value (whole ++ (trimmed ++ List.replicate count '0')) =
      value (whole ++ trimmed) * 10 ^ count := by
    rw [← List.append_assoc, value_append, value_replicate_zero, List.length_replicate,
      Nat.add_zero]
  have hexponent : exponent - ((trimmed ++ List.replicate count '0').length : ℤ) =
      shown - count := by
    rw [← hshown, List.length_append, List.length_replicate, Nat.cast_add, sub_sub]
  rw [hvalue, hexponent, signed_mul, Number.toRat]
  calc ((signed negative (value (whole ++ trimmed)) : ℤ) : ℚ) * 10 ^ shown
      = (signed negative (value (whole ++ trimmed)) : ℤ) * (10 ^ count * 10 ^ (shown - count)) := by
        rw [← zpow_natCast, ← zpow_add₀ (by norm_num), add_sub_cancel]
    _ = ((signed negative (value (whole ++ trimmed)) * (10 ^ count : ℕ) : ℤ) : ℚ) *
          10 ^ (shown - count) := by
        push_cast
        ring

/-! ## Both notations -/

/-- A numeral that denotes `coefficient * 10 ^ (exponent - 5)` or its opposite, in the notation that
the exponent asks for. -/
structure SixDigitText (negative : Bool) (coefficient : ℕ) (exponent : ℤ) (text : List Char) :
    Prop where
  denotes_iff : ∀ number, Denotes text number ↔
    number = (signed negative coefficient : ℤ) * 10 ^ (exponent - 5)
  fixed_iff : FixedText text ↔ -4 ≤ exponent ∧ exponent < 6
  scientific_iff : ScientificText text exponent ↔ exponent < -4 ∨ 6 ≤ exponent
  /-- An integer in fixed notation has all its digits. -/
  integer : -4 ≤ exponent → exponent < 6 → ∀ number : ℕ,
    (number : ℚ) = coefficient * 10 ^ (exponent - 5) → text = sign negative ++ digits number

section General

variable {numerator denominator coefficient : ℕ} {exponent : ℤ}

theorem rounded_eq (hnumerator : 0 < numerator) (hdenominator : 0 < denominator)
    (hrounds : RoundsToSix ((numerator : ℚ) / denominator) coefficient exponent) :
    Scientific.rounded 6 numerator denominator = ⟨digits coefficient, exponent⟩ := by
  obtain ⟨coefficient', exponent', hrounds', hrounded⟩ := exists_rounded hnumerator hdenominator
  obtain ⟨rfl, rfl⟩ := hrounds.unique hrounds'
  exact hrounded

/-- The text in fixed notation. -/
theorem exists_general_of_fixed (hnumerator : 0 < numerator) (hdenominator : 0 < denominator)
    (hrounds : RoundsToSix ((numerator : ℚ) / denominator) coefficient exponent)
    (hleast : -4 ≤ exponent) (hgreatest : exponent < 6) :
    ∃ places : ℕ, ∃ fraction, (places : ℤ) = 5 - exponent ∧ fraction.length = places ∧
      padded (places + 1) coefficient = digits (coefficient / 10 ^ places) ++ fraction ∧
        general numerator denominator =
          pointed (digits (coefficient / 10 ^ places)) (withoutTrailingZeros fraction) := by
  obtain ⟨fraction, hfraction, hlength⟩ :=
    exists_padded_eq_append (5 - exponent).toNat coefficient
  refine ⟨_, fraction, Int.toNat_of_nonneg (by omega), hlength, hfraction, ?_⟩
  have hrange : -4 ≤ exponent ∧ exponent < 6 := ⟨hleast, hgreatest⟩
  have hlength' : (digits (coefficient / 10 ^ (5 - exponent).toNat) ++ fraction).length -
      (5 - exponent).toNat = (digits (coefficient / 10 ^ (5 - exponent).toNat)).length := by
    rw [List.length_append, hlength, Nat.add_sub_cancel]
  simp only [general, rounded_eq hnumerator hdenominator hrounds, if_pos hrange, positional,
    roundDiv_places hdenominator hrounds (by omega : exponent ≤ 5), hfraction, hlength',
    List.take_left, List.drop_left]

/-- The text in scientific notation. -/
theorem exists_general_of_scientific (hnumerator : 0 < numerator) (hdenominator : 0 < denominator)
    (hrounds : RoundsToSix ((numerator : ℚ) / denominator) coefficient exponent)
    (hrange : exponent < -4 ∨ 6 ≤ exponent) :
    ∃ first fraction, digits coefficient = first :: fraction ∧ fraction.length = 5 ∧
      general numerator denominator =
        pointed [first] (withoutTrailingZeros fraction) ++
          'e' :: (if exponent < 0 then '-' else '+') :: padded 2 exponent.natAbs := by
  obtain ⟨hlower, hupper⟩ := hrounds.bounds
  obtain ⟨places, hlength, hleast, hgreatest⟩ := length_digits_bounds (by omega : 0 < coefficient)
  have hfive : places = 5 := by
    have hless : places < 6 :=
      (Nat.pow_lt_pow_iff_right (a := 10) (by decide)).mp (hleast.trans_lt hupper)
    have hmore : 5 < places + 1 :=
      (Nat.pow_lt_pow_iff_right (a := 10) (by decide)).mp (hlower.trans_lt hgreatest)
    omega
  subst hfive
  obtain ⟨first, fraction, hdigits⟩ := List.exists_cons_of_ne_nil (digits_ne_nil coefficient)
  refine ⟨first, fraction, hdigits, ?_, ?_⟩
  · rw [hdigits, List.length_cons] at hlength
    omega
  · have hout : ¬(-4 ≤ exponent ∧ exponent < 6) := by omega
    simp only [general, rounded_eq hnumerator hdenominator hrounds, if_neg hout, Scientific.head,
      Scientific.tail, hdigits]
    rfl

theorem general_of_fixed (negative : Bool) (hnumerator : 0 < numerator)
    (hdenominator : 0 < denominator)
    (hrounds : RoundsToSix ((numerator : ℚ) / denominator) coefficient exponent)
    (hleast : -4 ≤ exponent) (hgreatest : exponent < 6) :
    FixedText (sign negative ++ general numerator denominator) ∧
      Denotes (sign negative ++ general numerator denominator)
        ((signed negative coefficient : ℤ) * 10 ^ (exponent - 5)) := by
  obtain ⟨places, fraction, hplaces, hlength, hdigits, hgeneral⟩ :=
    exists_general_of_fixed hnumerator hdenominator hrounds hleast hgreatest
  have hall := allDigits_padded (places + 1) coefficient
  rw [hdigits] at hall
  have hfraction : AllDigits fraction := fun c hmem => hall c (List.mem_append_right _ hmem)
  have hvalue : value (digits (coefficient / 10 ^ places) ++ fraction) = coefficient := by
    rw [← hdigits, value_padded]
  rw [hgeneral]
  refine ⟨.mk negative _ (trimmedText_pointed _ hfraction), ?_⟩
  have hdenotes := denotes_pointed negative (allDigits_digits (coefficient / 10 ^ places))
    (digits_ne_nil _) hfraction .missing
  rw [List.append_nil, hvalue, hlength, hplaces] at hdenotes
  convert hdenotes using 2
  congr 1
  ring

theorem general_of_scientific (negative : Bool) (hnumerator : 0 < numerator)
    (hdenominator : 0 < denominator)
    (hrounds : RoundsToSix ((numerator : ℚ) / denominator) coefficient exponent)
    (hrange : exponent < -4 ∨ 6 ≤ exponent) :
    ScientificText (sign negative ++ general numerator denominator) exponent ∧
      Denotes (sign negative ++ general numerator denominator)
        ((signed negative coefficient : ℤ) * 10 ^ (exponent - 5)) := by
  obtain ⟨first, fraction, hdigits, hlength, hgeneral⟩ :=
    exists_general_of_scientific hnumerator hdenominator hrounds hrange
  have hall := allDigits_digits coefficient
  rw [hdigits] at hall
  have hfirst : first.isDigit = true := hall first List.mem_cons_self
  have hfraction : AllDigits fraction := fun c hmem => hall c (List.mem_cons_of_mem _ hmem)
  have hvalue : value ([first] ++ fraction) = coefficient := by
    rw [List.singleton_append, ← hdigits, value_digits]
  rw [hgeneral, ← List.append_assoc]
  constructor
  · exact .mk negative hfirst (trimmedText_pointed [first] hfraction) (allDigits_padded 2 _)
      (le_length_padded 2 _) (value_padded 2 _)
  · have hwhole : AllDigits [first] := by simpa [AllDigits] using hfirst
    have hdenotes := denotes_pointed negative hwhole (List.cons_ne_nil first []) hfraction
      (powerText_padded exponent)
    rwa [hvalue, hlength] at hdenotes

/-- An integer keeps the zeros at its end. -/
theorem general_of_integer (hnumerator : 0 < numerator) (hdenominator : 0 < denominator)
    (hrounds : RoundsToSix ((numerator : ℚ) / denominator) coefficient exponent)
    (hleast : -4 ≤ exponent) (hgreatest : exponent < 6) {number : ℕ}
    (hnumber : (number : ℚ) = coefficient * 10 ^ (exponent - 5)) :
    general numerator denominator = digits number := by
  obtain ⟨places, fraction, hplaces, hlength, hdigits, hgeneral⟩ :=
    exists_general_of_fixed hnumerator hdenominator hrounds hleast hgreatest
  have hcoefficient : number * 10 ^ places = coefficient := by
    have hexponent : exponent - 5 = -(places : ℤ) := by omega
    rw [hexponent, zpow_neg, zpow_natCast] at hnumber
    have hproduct : (number : ℚ) * 10 ^ places = coefficient := by
      rw [hnumber, inv_mul_cancel_right₀ (by positivity)]
    exact_mod_cast hproduct
  subst hcoefficient
  obtain ⟨hlower, -⟩ := hrounds.bounds
  have hpositive : 0 < number := Nat.pos_of_mul_pos_right (by omega : 0 < number * 10 ^ places)
  have hlong : places + 1 - (digits number ++ List.replicate places '0').length = 0 := by
    have hnonempty := List.length_pos_of_ne_nil (digits_ne_nil number)
    rw [List.length_append, List.length_replicate]
    omega
  rw [Nat.mul_div_cancel _ (Nat.pow_pos (by decide)), padded, digits_mul_ten_pow hpositive, hlong,
    List.replicate_zero, List.nil_append] at hdigits
  rw [hgeneral, Nat.mul_div_cancel _ (Nat.pow_pos (by decide)), ← List.append_cancel_left hdigits,
    withoutTrailingZeros_replicate]
  rfl

theorem sixDigitText_general (negative : Bool) (hnumerator : 0 < numerator)
    (hdenominator : 0 < denominator)
    (hrounds : RoundsToSix ((numerator : ℚ) / denominator) coefficient exponent) :
    SixDigitText negative coefficient exponent
      (sign negative ++ general numerator denominator) := by
  by_cases hrange : -4 ≤ exponent ∧ exponent < 6
  · obtain ⟨hleast, hgreatest⟩ := hrange
    obtain ⟨hfixed, hdenotes⟩ :=
      general_of_fixed negative hnumerator hdenominator hrounds hleast hgreatest
    constructor
    · exact hdenotes.iff_eq
    · exact iff_of_true hfixed ⟨hleast, hgreatest⟩
    · exact iff_of_false (fun hscientific => hscientific.not_fixedText hfixed) (by omega)
    · intro _ _ number hnumber
      rw [general_of_integer hnumerator hdenominator hrounds hleast hgreatest hnumber]
  · obtain ⟨hscientific, hdenotes⟩ :=
      general_of_scientific negative hnumerator hdenominator hrounds (by omega)
    constructor
    · exact hdenotes.iff_eq
    · exact iff_of_false hscientific.not_fixedText hrange
    · exact iff_of_true hscientific (by omega)
    · exact fun hleast hgreatest => absurd ⟨hleast, hgreatest⟩ hrange

end General

end Decimal

namespace Binary64

/-- The absolute value of a double as a rational number. -/
def Magnitude.toRat (magnitude : Magnitude) : ℚ :=
  magnitude.units / one

/-- A finite double other than zero is printed exactly: as the one numeral of six significant digits
that is nearest to it. -/
theorem sixDigits_exact (negative : Bool) (magnitude : Magnitude) (hnonzero : magnitude.units ≠ 0) :
    ∃ coefficient exponent, RoundsToSix magnitude.toRat coefficient exponent ∧
      (∀ coefficient' exponent', RoundsToSix magnitude.toRat coefficient' exponent' →
        coefficient' = coefficient ∧ exponent' = exponent) ∧
      100000 ≤ coefficient ∧ coefficient < 1000000 ∧
      Decimal.SixDigitText negative coefficient exponent
        (sixDigits (.finite negative magnitude)) := by
  have hone : 0 < one := by
    rw [one]
    exact Nat.two_pow_pos 1074
  have hpositive : 0 < magnitude.units := Nat.pos_of_ne_zero hnonzero
  obtain ⟨coefficient, exponent, hrounds, -⟩ := Decimal.exists_rounded hpositive hone
  obtain ⟨hlower, hupper⟩ := hrounds.bounds
  refine ⟨coefficient, exponent, hrounds, fun _ _ hother => hother.unique hrounds, hlower, hupper,
    ?_⟩
  have htext := Decimal.sixDigitText_general negative hpositive hone hrounds
  rwa [sixDigits, if_neg hnonzero]

/-- The double `999999.5` is half-way between two numbers of six digits.  The even one of them
begins the next decade, and that is printed with an exponent. -/
theorem sixDigits_exact_of_carry :
    let magnitude : Magnitude :=
      ⟨1999999 * 2 ^ 1073, onGrid_mul_two_pow (by decide) 1073, by decide +kernel⟩
    sixDigits (.finite false magnitude) = ['1', 'e', '+', '0', '6'] ∧
      ∃ coefficient exponent, RoundsToSix magnitude.toRat coefficient exponent ∧
        (∀ coefficient' exponent', RoundsToSix magnitude.toRat coefficient' exponent' →
          coefficient' = coefficient ∧ exponent' = exponent) ∧
        100000 ≤ coefficient ∧ coefficient < 1000000 ∧
        Decimal.SixDigitText false coefficient exponent (sixDigits (.finite false magnitude)) :=
  ⟨by decide +kernel, sixDigits_exact false _ (by decide +kernel)⟩

end Binary64

end LetterMachine
