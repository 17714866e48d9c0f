import LetterMachine.Proofs.PrintedIntegers
import LetterMachine.Proofs.ShortestDigits
import LetterMachine.Proofs.TokenNumerals
import LetterMachine.Value.Text

/-!
# The texts of values

The digits of a double are laid out in positional notation or with an exponent.  Either layout is a
numeral that denotes the number of the digits, so the text of a finite double is a numeral to which
the double is the nearest one.  As there is a point or an exponent in it, it is not the text of an
integer, and so finite values are told apart by their texts: `Value.styled_injective`.
-/

namespace LetterMachine

/-! ## Layouts -/

namespace Decimal

/-- A numeral with the sign and the magnitude of the number that it denotes. -/
def Shows (text : List Char) (negative : Bool) (magnitude : ℚ) : Prop :=
  ∃ parts, DecimalText text parts ∧ parts.negative = negative ∧
    (parts.coefficient : ℚ) * 10 ^ parts.exponent = magnitude

section Layouts

variable {number : Scientific} {style : ShortestStyle}

theorem shows_of_mantissa {mantissa digits power : List Char} {places : ℕ} {exponent : ℤ}
    {magnitude : ℚ} (negative : Bool) (hmantissa : MantissaText mantissa digits places)
    (hpower : PowerText power exponent)
    (hmagnitude : (value digits : ℚ) * 10 ^ (exponent - places) = magnitude) :
    Shows (sign negative ++ mantissa ++ power) negative magnitude :=
  ⟨_, .mk (signText_sign negative) hmantissa hpower, rfl, hmagnitude⟩

theorem value_append_zeros (digits : List Char) (count : ℕ) :
    value (digits ++ List.replicate count '0') = value digits * 10 ^ count := by
  rw [value_append, value_replicate_zero, List.length_replicate, Nat.add_zero]

theorem allDigits_append {front back : List Char} (hfront : AllDigits front)
    (hback : AllDigits back) : AllDigits (front ++ back) :=
  List.forall_mem_append.mpr ⟨hfront, hback⟩

theorem AllDigits.take {text : List Char} (htext : AllDigits text) (count : ℕ) :
    AllDigits (text.take count) :=
  fun c hmem => htext c (List.mem_of_mem_take hmem)

theorem AllDigits.drop {text : List Char} (htext : AllDigits text) (count : ℕ) :
    AllDigits (text.drop count) :=
  fun c hmem => htext c (List.mem_of_mem_drop hmem)

theorem allDigits_replicate_zero (count : ℕ) : AllDigits (List.replicate count '0') := by
  intro c hmem
  rw [List.eq_of_mem_replicate hmem]
  rfl

/-- Zeros behind the point come before the digits of a number that is less than one. -/
theorem shows_styled_of_small (negative : Bool) (hdigits : number.HasDigits)
    (hsmall : number.exponent < 0) :
    Shows (sign negative ++ (number.whole ++ '.' :: number.fraction)) negative number.toRat := by
  have hzeros := allDigits_replicate_zero (number.exponent.natAbs - 1)
  have hmantissa := MantissaText.pointed (allDigits_replicate_zero 1) (by simp)
    (allDigits_append hzeros hdigits.allDigits)
  have hshows := shows_of_mantissa negative hmantissa .missing rfl
  have hlength : (0 : ℤ) - ((List.replicate (number.exponent.natAbs - 1) '0' ++
      number.digits).length : ℕ) = number.exponent + 1 - number.digits.length := by
    rw [List.length_append, List.length_replicate]
    omega
  rw [List.append_nil, hlength, value_append, value_append, value_replicate_zero,
    value_replicate_zero, Nat.zero_mul, Nat.zero_mul, Nat.zero_add, Nat.zero_add] at hshows
  rw [Scientific.whole, Scientific.fraction, if_pos hsmall, if_pos hsmall]
  exact hshows

/-- Zeros before the point come behind the digits of a number that is whole. -/
theorem shows_styled_of_whole (negative : Bool) (hdigits : number.HasDigits)
    (hlarge : 0 ≤ number.exponent) (hwhole : number.digits.length ≤ number.exponent.toNat + 1) :
    number.fraction = [] ∧
      Shows (sign negative ++ (number.whole ++ ['.', '0'])) negative number.toRat := by
  obtain ⟨zeros, hzeros⟩ := Nat.exists_eq_add_of_le hwhole
  have hsmall : ¬number.exponent < 0 := Int.not_lt.mpr hlarge
  have hfraction : number.fraction = [] := by
    rw [Scientific.fraction, if_neg hsmall]
    exact List.drop_eq_nil_of_le hwhole
  have hnumber : number.whole = number.digits ++ List.replicate zeros '0' := by
    rw [Scientific.whole, if_neg hsmall]
    dsimp only
    rw [List.take_of_length_le hwhole, hzeros, Nat.add_sub_cancel_left]
  have hmantissa := MantissaText.pointed
    (allDigits_append hdigits.allDigits (allDigits_replicate_zero zeros))
    (List.append_ne_nil_of_left_ne_nil hdigits.ne_nil _) (allDigits_replicate_zero 1)
  -- Every zero behind the digits, the one behind the point included, is a factor of ten.
  have hvalue : (value (number.digits ++ List.replicate zeros '0' ++ ['0']) : ℚ) *
      10 ^ (0 - (1 : ℕ) : ℤ) = number.toRat := by
    have hexponent : number.exponent + 1 - number.digits.length =
        (zeros + 1 : ℕ) + (0 - (1 : ℕ)) := by
      push_cast
      omega
    rw [← List.replicate_one, List.append_assoc, List.replicate_append_replicate,
      value_append_zeros, Scientific.toRat, hexponent, zpow_add₀ (by norm_num), zpow_natCast]
    push_cast
    ring
  have hshows := shows_of_mantissa negative hmantissa .missing hvalue
  rw [List.append_nil] at hshows
  rw [hnumber]
  exact ⟨hfraction, hshows⟩

/-- The point stands among the digits. -/
theorem shows_styled_of_pointed (negative : Bool) (hdigits : number.HasDigits)
    (hlarge : 0 ≤ number.exponent) (hpointed : number.exponent.toNat + 1 < number.digits.length) :
    number.fraction ≠ [] ∧
      Shows (sign negative ++ (number.whole ++ '.' :: number.fraction)) negative number.toRat := by
  have hsmall : ¬number.exponent < 0 := Int.not_lt.mpr hlarge
  have hfraction : number.fraction = number.digits.drop (number.exponent.toNat + 1) := by
    rw [Scientific.fraction, if_neg hsmall]
  have hwhole : number.whole = number.digits.take (number.exponent.toNat + 1) := by
    rw [Scientific.whole, if_neg hsmall]
    dsimp only
    rw [Nat.sub_eq_zero_of_le (Nat.le_of_lt hpointed), List.replicate_zero, List.append_nil]
  have hnonempty : number.digits.take (number.exponent.toNat + 1) ≠ [] := by
    rw [Ne, List.take_eq_nil_iff, not_or]
    exact ⟨Nat.succ_ne_zero _, hdigits.ne_nil⟩
  have hmantissa := MantissaText.pointed (hdigits.allDigits.take (number.exponent.toNat + 1))
    hnonempty (hdigits.allDigits.drop (number.exponent.toNat + 1))
  have hexponent : (0 : ℤ) - (number.digits.drop (number.exponent.toNat + 1)).length =
      number.exponent + 1 - number.digits.length := by
    rw [List.length_drop]
    omega
  rw [List.take_append_drop] at hmantissa
  have hshows := shows_of_mantissa negative hmantissa .missing rfl
  rw [List.append_nil, hexponent] at hshows
  rw [hfraction, hwhole]
  refine ⟨?_, hshows⟩
  rw [Ne, List.drop_eq_nil_iff]
  exact Nat.not_le_of_lt hpointed

/-- An exponent without padding. -/
theorem powerText_digits (hsign : SignText style.positiveSign false) (exponent : ℤ) :
    PowerText ('e' :: (if exponent < 0 then ['-'] else style.positiveSign) ++
      digits exponent.natAbs) exponent := by
  have hdigits := allDigits_digits exponent.natAbs
  have hnonempty := digits_ne_nil exponent.natAbs
  apply PowerText.marked (Or.inl rfl)
  split
  · have hinteger := IntegerText.mk .minus hdigits hnonempty
    have hvalue : signed true exponent.natAbs = exponent := by
      simp only [signed, if_true]
      omega
    rwa [value_digits, hvalue] at hinteger
  · rename_i hnonneg
    have hinteger := IntegerText.mk hsign hdigits hnonempty
    have hvalue : signed false exponent.natAbs = exponent :=
      Int.natAbs_of_nonneg (not_lt.mp hnonneg)
    rwa [value_digits, hvalue] at hinteger

/-- One digit stands before the point if there is an exponent. -/
theorem shows_styled_of_power (negative : Bool) (hsign : SignText style.positiveSign false)
    (hdigits : number.HasDigits) :
    Shows (sign negative ++ (pointed number.head number.tail ++
      ('e' :: (if number.exponent < 0 then ['-'] else style.positiveSign) ++
        digits number.exponent.natAbs))) negative number.toRat := by
  have hlength := List.length_pos_iff.mpr hdigits.ne_nil
  have hhead : number.head ≠ [] := by
    rw [Scientific.head, Ne, List.take_eq_nil_iff, not_or]
    exact ⟨Nat.one_ne_zero, hdigits.ne_nil⟩
  have hmantissa : MantissaText (pointed number.head number.tail) (number.head ++ number.tail)
      number.tail.length :=
    mantissaText_pointed (hdigits.allDigits.take 1) hhead (hdigits.allDigits.drop 1)
  have hexponent : number.exponent - number.tail.length =
      number.exponent + 1 - number.digits.length := by
    rw [Scientific.tail, List.length_drop]
    omega
  have happend : number.head ++ number.tail = number.digits := List.take_append_drop 1 _
  rw [happend] at hmantissa
  have hshows := shows_of_mantissa negative hmantissa (powerText_digits hsign number.exponent) rfl
  rwa [List.append_assoc, hexponent] at hshows

theorem shows_styled (negative : Bool) (hsign : SignText style.positiveSign false)
    (hdigits : number.HasDigits) :
    Shows (sign negative ++ number.styled style) negative number.toRat := by
  unfold Scientific.styled
  split
  · rcases Int.lt_or_le number.exponent 0 with hsmall | hlarge
    · have hnonempty : number.fraction.isEmpty = false := by
        rw [List.isEmpty_eq_false_iff, Scientific.fraction, if_pos hsmall]
        exact List.append_ne_nil_of_right_ne_nil _ hdigits.ne_nil
      rw [hnonempty]
      exact shows_styled_of_small negative hdigits hsmall
    · rcases Nat.lt_or_ge (number.exponent.toNat + 1) number.digits.length with
        hpointed | hwhole
      · obtain ⟨hnonempty, hshows⟩ := shows_styled_of_pointed negative hdigits hlarge hpointed
        rw [List.isEmpty_eq_false_iff.mpr hnonempty]
        exact hshows
      · obtain ⟨hempty, hshows⟩ := shows_styled_of_whole negative hdigits hlarge hwhole
        rw [hempty]
        exact hshows
  · rw [List.append_assoc]
    exact shows_styled_of_power negative hsign hdigits

end Layouts

end Decimal

/-! ## Characters of a numeral -/

namespace Decimal

/-- The characters that numbers are written with. -/
def inNumber (c : Char) : Bool :=
  c.isDigit || c == '+' || c == '-' || c == '.' || c == 'e' || c == 'E'

/-- The characters that numbers, and words in the place of a number, are written with. -/
def inNumeral (c : Char) : Bool :=
  c.isAlphanum || c == '+' || c == '-' || c == '.'

theorem inNumber_of_isDigit {c : Char} (hdigit : c.isDigit = true) : inNumber c = true := by
  rw [inNumber, hdigit]
  rfl

theorem inNumeral_of_isAlphanum {c : Char} (hc : c.isAlphanum = true) : inNumeral c = true := by
  rw [inNumeral, hc]
  rfl

theorem inNumeral_of_inNumber {c : Char} (hnumber : inNumber c = true) : inNumeral c = true := by
  simp only [inNumber, Bool.or_eq_true, beq_iff_eq] at hnumber
  rcases hnumber with ((((hdigit | rfl) | rfl) | rfl) | rfl) | rfl
  · apply inNumeral_of_isAlphanum
    rw [Char.isAlphanum, hdigit, Bool.or_true]
  all_goals rfl

theorem AllDigits.inNumber {digits : List Char} (hdigits : AllDigits digits) :
    ∀ c ∈ digits, inNumber c = true :=
  fun c hmem => inNumber_of_isDigit (hdigits c hmem)

theorem SignText.inNumber {sign : List Char} {negative : Bool} (hsign : SignText sign negative) :
    ∀ c ∈ sign, inNumber c = true := by
  cases hsign with
  | missing => exact List.forall_mem_nil _
  | plus | minus => exact List.forall_mem_singleton.mpr rfl

theorem IntegerText.mark_not_mem {text : List Char} {number : Int}
    (htext : IntegerText text number) : 'e' ∉ text := by
  obtain ⟨hsign, hdigits, -⟩ := htext
  rw [List.mem_append, not_or]
  constructor
  · cases hsign <;> decide
  · intro hmem
    cases hdigits 'e' hmem

theorem IntegerText.inNumber {text : List Char} {number : Int} (htext : IntegerText text number) :
    ∀ c ∈ text, inNumber c = true := by
  obtain ⟨hsign, hdigits, -⟩ := htext
  exact List.forall_mem_append.mpr ⟨hsign.inNumber, hdigits.inNumber⟩

theorem MantissaText.inNumber {mantissa digits : List Char} {places : ℕ}
    (hmantissa : MantissaText mantissa digits places) : ∀ c ∈ mantissa, inNumber c = true := by
  cases hmantissa with
  | whole hdigits => exact hdigits.inNumber
  | pointed hwhole _ hfraction =>
      exact List.forall_mem_append.mpr
        ⟨hwhole.inNumber, List.forall_mem_cons.mpr ⟨rfl, hfraction.inNumber⟩⟩
  | bare hfraction => exact List.forall_mem_cons.mpr ⟨rfl, hfraction.inNumber⟩

theorem PowerText.inNumber {power : List Char} {exponent : ℤ}
    (hpower : PowerText power exponent) : ∀ c ∈ power, inNumber c = true := by
  cases hpower with
  | missing => exact List.forall_mem_nil _
  | marked hmark hpower =>
      rcases hmark with rfl | rfl
      all_goals exact List.forall_mem_cons.mpr ⟨rfl, hpower.inNumber⟩

theorem DecimalText.inNumber {text : List Char} {number : Number}
    (htext : DecimalText text number) : ∀ c ∈ text, inNumber c = true := by
  obtain ⟨hsign, hmantissa, hpower⟩ := htext
  exact List.forall_mem_append.mpr
    ⟨List.forall_mem_append.mpr ⟨hsign.inNumber, hmantissa.inNumber⟩, hpower.inNumber⟩

end Decimal

/-! ## The texts of doubles -/

/-- The exponents of a layout are numerals, and its words have no characters but those of numerals
in them. -/
structure ShortestStyle.IsNumeral (style : ShortestStyle) : Prop where
  positiveSign : Decimal.SignText style.positiveSign false
  nan : ∀ c ∈ style.nan, Decimal.inNumeral c = true
  infinite : ∀ negative, ∀ c ∈ style.infinite negative, Decimal.inNumeral c = true

theorem Value.isNumeral_traceStyle : traceStyle.IsNumeral where
  positiveSign := .missing
  nan := List.all_eq_true.mp (by decide)
  infinite negative := List.all_eq_true.mp (by cases negative <;> decide)

theorem Value.isNumeral_jsonStyle : jsonStyle.IsNumeral where
  positiveSign := .plus
  nan := List.all_eq_true.mp (by decide)
  infinite negative := List.all_eq_true.mp (by cases negative <;> decide)

namespace Binary64

def IsFinite : Binary64 → Prop
  | .finite _ _ => True
  | _ => False

instance : DecidablePred IsFinite
  | .finite _ _ => .isTrue trivial
  | .nan _ _ => .isFalse id
  | .infinite _ => .isFalse id

variable {style : ShortestStyle} {negative : Bool} {magnitude : Magnitude}

theorem nearestDecimal_zero (hzero : magnitude.units = 0) (exponent : ℤ) :
    nearestDecimal negative 0 exponent = .finite negative magnitude := by
  rw [finite_eq_zero_iff.mpr ⟨rfl, hzero⟩, nearestDecimal]
  apply ofUnits_eq_zero
  simp only [Nat.zero_mul, Nat.mul_zero, Nat.one_mul]
  exact Nat.pow_pos (by decide)

/-- The text of a finite double is a numeral to which the double is nearest. -/
theorem exists_shortestText (hstyle : style.IsNumeral) (negative : Bool) (magnitude : Magnitude) :
    ∃ number, Decimal.DecimalText (shortestText style (.finite negative magnitude)) number ∧
      number.nearest = .finite negative magnitude := by
  rw [shortestText]
  split
  · rename_i hzero
    have htext := Decimal.DecimalText.mk (Decimal.signText_sign negative)
      (.pointed (Decimal.allDigits_replicate_zero 1) (by simp)
        (Decimal.allDigits_replicate_zero 1)) .missing
    rw [List.append_nil] at htext
    exact ⟨_, htext, nearestDecimal_zero hzero _⟩
  · rename_i hnonzero
    obtain ⟨hdigits, hnearest⟩ := magnitude.shortest_spec style.tie hnonzero
    obtain ⟨number, htext, rfl, hnumber⟩ :=
      Decimal.shows_styled negative hstyle.positiveSign hdigits
    refine ⟨number, htext, ?_⟩
    rw [← hnumber] at hnearest
    exact (isNearest_nearestDecimal _ _ _).unique hnearest.of_positive

/-- There is a point or an exponent in the text of a finite double. -/
theorem mark_mem_shortestText (style : ShortestStyle) (negative : Bool) (magnitude : Magnitude) :
    '.' ∈ shortestText style (.finite negative magnitude) ∨
      'e' ∈ shortestText style (.finite negative magnitude) := by
  simp only [shortestText, List.mem_append, Decimal.Scientific.styled]
  split
  · simp
  · split <;> simp

end Binary64

/-! ## The texts of values -/

namespace Value

/-- Integers and finite doubles. -/
def IsFinite : Value → Prop
  | .integer _ => True
  | .float number => number.IsFinite

instance : DecidablePred IsFinite
  | .integer _ => .isTrue trivial
  | .float number => inferInstanceAs (Decidable number.IsFinite)

/-- Numerals for values: integers have neither point nor exponent, doubles have one of them. -/
inductive Numeral : List Char → Value → Prop where
  | integer {text : List Char} {number : Int64}
      (htext : Decimal.IntegerText text number.toInt) : Numeral text (.integer number)
  | float {text : List Char} {number : Decimal.Number} (htext : Decimal.DecimalText text number)
      (hmark : '.' ∈ text ∨ 'e' ∈ text) : Numeral text (.float number.nearest)

theorem numeral_unique : Relator.RightUnique Numeral := by
  intro text left right hleft hright
  cases hleft with
  | integer htext =>
      cases hright with
      | integer htext' =>
          rw [Int64.toInt_inj.mp (Decimal.finds_readInteger?.rightUnique htext htext')]
      | float _ hmark => exact (hmark.elim htext.point_not_mem htext.mark_not_mem).elim
  | float htext hmark =>
      cases hright with
      | integer htext' => exact (hmark.elim htext'.point_not_mem htext'.mark_not_mem).elim
      | float htext' => rw [Decimal.finds_readDecimal?.rightUnique htext htext']

variable {style : ShortestStyle} {value left right : Value}

theorem numeral_styled (hstyle : style.IsNumeral) (hvalue : value.IsFinite) :
    Numeral (value.styled style) value := by
  match value with
  | .integer number => exact .integer (Decimal.integerText_integer number.toInt)
  | .float (.finite negative magnitude) =>
      obtain ⟨number, htext, hnumber⟩ := Binary64.exists_shortestText hstyle negative magnitude
      have hnumeral := Numeral.float htext
        (Binary64.mark_mem_shortestText style negative magnitude)
      rwa [hnumber] at hnumeral

/-- **Values that are finite are told apart by their texts**, integers from doubles and the zeros of
the two signs from each other. -/
theorem styled_injective (hstyle : style.IsNumeral) (hleft : left.IsFinite)
    (hright : right.IsFinite) (htext : left.styled style = right.styled style) : left = right := by
  have hnumeral := numeral_styled hstyle hleft
  rw [htext] at hnumeral
  exact numeral_unique hnumeral (numeral_styled hstyle hright)

theorem inNumeral_styled (hstyle : style.IsNumeral) (value : Value) :
    ∀ c ∈ value.styled style, Decimal.inNumeral c = true := by
  match value with
  | .integer number =>
      intro c hmem
      exact Decimal.inNumeral_of_inNumber
        ((Decimal.integerText_integer number.toInt).inNumber c hmem)
  | .float (.finite negative magnitude) =>
      intro c hmem
      obtain ⟨_, htext, -⟩ := Binary64.exists_shortestText hstyle negative magnitude
      exact Decimal.inNumeral_of_inNumber (htext.inNumber c hmem)
  | .float (.nan ..) => exact hstyle.nan
  | .float (.infinite negative) => exact hstyle.infinite negative

end Value

end LetterMachine
