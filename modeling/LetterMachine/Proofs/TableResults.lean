import LetterMachine.Machine.Workspace
import LetterMachine.Proofs.PrintedDoubles
import LetterMachine.Proofs.RoundedArithmetic

/-!
# Results of instructions

What the operators, the forms of printing and the forms of reading are to give, written down without
the functions of the machine: integers without a bound, doubles as exact numbers that are rounded
once, texts by what they denote.  Each relation is followed by the lemma that the machine meets it.
-/

namespace LetterMachine

namespace Value

/-! ## Values as operands -/

/-- The value as an integer.  A double loses its fraction and is brought into range. -/
def integerView : Value → ℤ
  | .integer number => number.toInt
  | .float number => number.truncation

/-- The value as a double.  An integer is rounded to one. -/
inductive Widens : Value → Binary64 → Prop where
  | integer {number : Int64} {double : Binary64} (hrounds : double.RoundsTo number.toInt false) :
      Widens (.integer number) double
  | float (number : Binary64) : Widens (.float number) number

/-- The value that tells whether something holds. -/
inductive Tells (holds : Prop) : Value → Prop where
  | one (hholds : holds) : Tells holds (.integer 1)
  | zero (hfails : ¬holds) : Tells holds (.integer 0)

theorem toInt_toInt64 (value : Value) : value.toInt64.toInt = value.integerView := by
  cases value with
  | integer => rfl
  | float number => exact number.toInt_toInt64

theorem toInt64_eq_zero_iff {value : Value} : value.toInt64 = 0 ↔ value.integerView = 0 := by
  rw [← toInt_toInt64, ← Int64.toInt_zero, Int64.toInt_inj]

theorem isTruthy_iff {value : Value} : value.isTruthy = true ↔ value.integerView ≠ 0 := by
  rw [isTruthy, bne_iff_ne, Ne, toInt64_eq_zero_iff]

theorem widens_toBinary64 (value : Value) : value.Widens value.toBinary64 := by
  cases value with
  | integer number => exact .integer (Binary64.roundsTo_ofInt number.toInt)
  | float number => exact .float number

theorem tells_ofBool {holds : Prop} {truth : Bool} (htruth : truth = true ↔ holds) :
    Tells holds (ofBool truth) := by
  cases truth with
  | false => exact .zero fun hholds => Bool.false_ne_true (htruth.mpr hholds)
  | true => exact .one (htruth.mp rfl)

/-- The bits of an integer are those of its remainder by `2 ^ 64`. -/
theorem toNat_toUInt64 (number : Int64) :
    (number.toUInt64.toNat : Int) = number.toInt % (2 ^ 64 : Nat) := by
  have hsigned : number.toInt = (number.toUInt64.toNat : Int).bmod (2 ^ 64) :=
    BitVec.toInt_eq_toNat_bmod number.toBitVec
  have hlt := number.toUInt64.toNat_lt
  rw [hsigned, Int.bmod_emod, Int.emod_eq_of_lt (Int.natCast_nonneg _) (Int.ofNat_lt.mpr hlt)]

theorem toNat_toByte (value : Value) :
    (value.toByte.toNat : Int) = value.toInt64.toInt % 256 := by
  have hwide := toNat_toUInt64 value.toInt64
  have hnarrow : value.toByte.toNat = value.toInt64.toUInt64.toNat % 256 := UInt64.toNat_toUInt8 _
  omega

end Value

/-! ## Operators -/

namespace Operator

/-- What an arithmetic operator computes of two integers.  Division is not among them. -/
def integral? : Operator → Option (ℤ → ℤ → ℤ)
  | .add => some fun a b => a + b
  | .sub => some fun a b => a - b
  | .mul => some fun a b => a * b
  | .rem => some Int.tmod
  | _ => none

/-- What an arithmetic operator computes of two doubles, before it is rounded. -/
def fractional? : Operator → Option (Extended → Extended → Extended)
  | .add => some .add
  | .sub => some .sub
  | .mul => some .mul
  | .div => some .div
  | .rem => some .rem
  | _ => none

/-- The order of its operands that a comparison asks for. -/
def order? : Operator → Option Ordering
  | .eq => some .eq
  | .gt => some .gt
  | .lt => some .lt
  | _ => none

def connective? : Operator → Option (Prop → Prop → Prop)
  | .and => some And
  | .or => some Or
  | _ => none

/-- The result of an operator on its left and its right operand. -/
inductive Results (operator : Operator) : Value → Value → Value → Prop where
  | integers {exact : ℤ → ℤ → ℤ} (hexact : operator.integral? = some exact) (a b : Int64) :
      Results operator (.integer a) (.integer b) (.integer (.ofInt (exact a.toInt b.toInt)))
  | doubles {exact : Extended → Extended → Extended} {left right : Value} {a b result : Binary64}
      (hexact : operator.fractional? = some exact)
      (hkinds : operator = .div ∨ left.isInteger = false ∨ right.isInteger = false)
      (hleft : left.Widens a) (hright : right.Widens b)
      (hrounds : (exact a.extended b.extended).RoundsTo result) :
      Results operator left right (.float result)
  | compareIntegers {order : Ordering} {result : Value} (horder : operator.order? = some order)
      (a b : Int64) (htells : result.Tells (cmp a.toInt b.toInt = order)) :
      Results operator (.integer a) (.integer b) result
  | compareDoubles {order : Ordering} {left right result : Value} {a b : Binary64}
      (horder : operator.order? = some order)
      (hkinds : left.isInteger = false ∨ right.isInteger = false)
      (hleft : left.Widens a) (hright : right.Widens b)
      (htells : result.Tells (∃ leftPlace ∈ a.extended.place?, ∃ rightPlace ∈ b.extended.place?,
        cmp leftPlace rightPlace = order)) :
      Results operator left right result
  | connective {connect : Prop → Prop → Prop} {left right result : Value}
      (hconnect : operator.connective? = some connect)
      (htells : result.Tells (connect (left.integerView ≠ 0) (right.integerView ≠ 0))) :
      Results operator left right result

section Integers

variable (a b : Int64)

theorem add_eq_ofInt : a + b = .ofInt (a.toInt + b.toInt) := by
  rw [Int64.ofInt_add, Int64.ofInt_toInt, Int64.ofInt_toInt]

theorem sub_eq_ofInt : a - b = .ofInt (a.toInt - b.toInt) := by
  rw [Int64.ofInt_sub, Int64.ofInt_toInt, Int64.ofInt_toInt]

theorem mul_eq_ofInt : a * b = .ofInt (a.toInt * b.toInt) := by
  rw [Int64.ofInt_mul, Int64.ofInt_toInt, Int64.ofInt_toInt]

theorem rem_eq_ofInt : a % b = .ofInt (a.toInt.tmod b.toInt) := by
  rw [← Int64.toInt_mod, Int64.ofInt_toInt]

end Integers

section Families

variable {operator : Operator} {left right : Value}

/-- The arithmetic operators share one way of choosing between integers and doubles. -/
theorem results_combine {exact : ℤ → ℤ → ℤ} {onIntegers : Int64 → Int64 → Int64}
    {rounded : Extended → Extended → Extended} {onFloats : Binary64 → Binary64 → Binary64}
    (hexact : operator.integral? = some exact)
    (hintegers : ∀ a b, onIntegers a b = .ofInt (exact a.toInt b.toInt))
    (hrounded : operator.fractional? = some rounded)
    (hfloats : ∀ a b, (rounded a.extended b.extended).RoundsTo (onFloats a b))
    (left right : Value) :
    operator.Results left right
      (Value.combine (fun a b => .integer (onIntegers a b)) (fun a b => .float (onFloats a b))
        left right) := by
  have hdoubles (hkinds : left.isInteger = false ∨ right.isInteger = false) :
      operator.Results left right (.float (onFloats left.toBinary64 right.toBinary64)) :=
    .doubles hrounded (.inr hkinds) left.widens_toBinary64 right.widens_toBinary64 (hfloats ..)
  cases left with
  | float => exact hdoubles (.inl rfl)
  | integer a =>
      cases right with
      | float => exact hdoubles (.inr rfl)
      | integer b =>
          rw [Value.combine, hintegers]
          exact .integers hexact a b

/-- And so do the comparisons. -/
theorem results_compare {order : Ordering} {onIntegers : Int64 → Int64 → Bool}
    {onFloats : Binary64 → Binary64 → Bool} (horder : operator.order? = some order)
    (hintegers : ∀ a b, onIntegers a b = true ↔ cmp a.toInt b.toInt = order)
    (hfloats : ∀ a b, onFloats a b = true ↔ ∃ leftPlace ∈ a.extended.place?,
      ∃ rightPlace ∈ b.extended.place?, cmp leftPlace rightPlace = order)
    (left right : Value) :
    operator.Results left right (.ofBool (Value.combine onIntegers onFloats left right)) := by
  have hdoubles (hkinds : left.isInteger = false ∨ right.isInteger = false) :
      operator.Results left right (.ofBool (onFloats left.toBinary64 right.toBinary64)) :=
    .compareDoubles horder hkinds left.widens_toBinary64 right.widens_toBinary64
      (Value.tells_ofBool (hfloats ..))
  cases left with
  | float => exact hdoubles (.inl rfl)
  | integer a =>
      cases right with
      | float => exact hdoubles (.inr rfl)
      | integer b => exact .compareIntegers horder a b (Value.tells_ofBool (hintegers ..))

theorem exists_places_iff {α : Type} {left right : Option α} {first second : α → α → Prop}
    (hiff : ∀ leftPlace rightPlace, first leftPlace rightPlace ↔ second leftPlace rightPlace) :
    (∃ leftPlace ∈ left, ∃ rightPlace ∈ right, first leftPlace rightPlace) ↔
      ∃ leftPlace ∈ left, ∃ rightPlace ∈ right, second leftPlace rightPlace := by
  simp only [hiff]

/-- A remainder that exists is that of the table. -/
theorem results_rem {result : Value} (hresult : rem.result? left right = some result) :
    rem.Results left right result := by
  have hcombine : rem.Results left right _ :=
    results_combine rfl rem_eq_ofInt rfl Binary64.rem_rounds left right
  cases left with
  | float => exact Option.some.inj hresult ▸ hcombine
  | integer a =>
      cases right with
      | float => exact Option.some.inj hresult ▸ hcombine
      | integer b =>
          have hrem : (if b = 0 then none else some (Value.integer (a % b))) = some result :=
            hresult
          rw [Option.ite_none_left_eq_some] at hrem
          exact Option.some.inj hrem.2 ▸ hcombine

/-- **An operator has the result of the table**, if it has one at all. -/
theorem results_of_result? {result : Value} (hresult : operator.result? left right = some result) :
    operator.Results left right result := by
  cases operator with
  | rem => exact results_rem hresult
  | div =>
      rw [← Option.some.inj hresult]
      exact .doubles rfl (.inl rfl) left.widens_toBinary64 right.widens_toBinary64
        (Binary64.div_rounds ..)
  | add =>
      rw [← Option.some.inj hresult]
      exact results_combine rfl add_eq_ofInt rfl Binary64.add_rounds left right
  | sub =>
      rw [← Option.some.inj hresult]
      exact results_combine rfl sub_eq_ofInt rfl Binary64.sub_rounds left right
  | mul =>
      rw [← Option.some.inj hresult]
      exact results_combine rfl mul_eq_ofInt rfl Binary64.mul_rounds left right
  | eq =>
      rw [← Option.some.inj hresult]
      apply results_compare (rfl : eq.order? = some .eq)
      · intro a b
        rw [beq_iff_eq, cmp_eq_eq_iff, Int64.toInt_inj]
      · intro a b
        exact (Binary64.equal_iff ..).trans (exists_places_iff fun _ _ => (cmp_eq_eq_iff ..).symm)
  | gt =>
      rw [← Option.some.inj hresult]
      apply results_compare (rfl : gt.order? = some .gt)
      · intro a b
        rw [decide_eq_true_iff, cmp_eq_gt_iff, Int64.lt_iff_toInt_lt]
      · intro a b
        rw [Binary64.less_iff]
        constructor
        · rintro ⟨rightPlace, hright, leftPlace, hleft, hless⟩
          exact ⟨leftPlace, hleft, rightPlace, hright, (cmp_eq_gt_iff ..).mpr hless⟩
        · rintro ⟨leftPlace, hleft, rightPlace, hright, hless⟩
          exact ⟨rightPlace, hright, leftPlace, hleft, (cmp_eq_gt_iff ..).mp hless⟩
  | lt =>
      rw [← Option.some.inj hresult]
      apply results_compare (rfl : lt.order? = some .lt)
      · intro a b
        rw [decide_eq_true_iff, cmp_eq_lt_iff, Int64.lt_iff_toInt_lt]
      · intro a b
        exact (Binary64.less_iff ..).trans (exists_places_iff fun _ _ => (cmp_eq_lt_iff ..).symm)
  | and =>
      rw [← Option.some.inj hresult]
      refine .connective rfl (Value.tells_ofBool ?_)
      rw [Bool.and_eq_true, Value.isTruthy_iff, Value.isTruthy_iff]
  | or =>
      rw [← Option.some.inj hresult]
      refine .connective rfl (Value.tells_ofBool ?_)
      rw [Bool.or_eq_true, Value.isTruthy_iff, Value.isTruthy_iff]

end Families

end Operator

/-! ## Printing -/

/-- Bytes that are the characters of a text, each of one byte. -/
def Spells (bytes : List UInt8) (text : List Char) : Prop :=
  bytes.map UInt8.toNat = text.map Char.toNat

/-- The text of a double in six significant digits. -/
inductive Binary64.Shows : Binary64 → List Char → Prop where
  | nan (negative : Bool) (payload : Payload) : Shows (.nan negative payload) ['n', 'a', 'n']
  | infinite : Shows (.infinite false) ['i', 'n', 'f']
  | negativeInfinite : Shows (.infinite true) ['-', 'i', 'n', 'f']
  | zero {magnitude : Magnitude} (hzero : magnitude.units = 0) :
      Shows (.finite false magnitude) ['0']
  | negativeZero {magnitude : Magnitude} (hzero : magnitude.units = 0) :
      Shows (.finite true magnitude) ['-', '0']
  | digits {negative : Bool} {magnitude : Magnitude} {coefficient : ℕ} {exponent : ℤ}
      {text : List Char} (hnonzero : magnitude.units ≠ 0)
      (hrounds : RoundsToSix magnitude.toRat coefficient exponent)
      (htext : Decimal.SixDigitText negative coefficient exponent text) :
      Shows (.finite negative magnitude) text

/-- The bytes that a form of printing makes of a value: its decimal digits as an integer, its six
significant digits as a double, or its low byte. -/
inductive PrintForm.Prints : PrintForm → Value → List UInt8 → Prop where
  | integer {value : Value} {bytes : List UInt8}
      (hbytes : Spells bytes (toString value.integerView).toList) : Prints .integer value bytes
  | float {value : Value} {number : Binary64} {text : List Char} {bytes : List UInt8}
      (hwidens : value.Widens number) (htext : number.Shows text) (hbytes : Spells bytes text) :
      Prints .float value bytes
  | byte {value : Value} {byte : UInt8} (hbyte : (byte.toNat : ℤ) = value.integerView % 256) :
      Prints .byte value [byte]

theorem Binary64.shows_sixDigits (number : Binary64) : number.Shows number.sixDigits := by
  cases number with
  | nan negative payload => exact .nan negative payload
  | infinite negative =>
      cases negative
      · exact .infinite
      · exact .negativeInfinite
  | finite negative magnitude =>
      by_cases hzero : magnitude.units = 0
      · rw [sixDigits, if_pos hzero]
        cases negative
        · exact .zero hzero
        · exact .negativeZero hzero
      · have hpositive := Nat.pos_of_ne_zero hzero
        obtain ⟨coefficient, exponent, hrounds, -⟩ := Decimal.exists_rounded hpositive one_pos
        rw [sixDigits, if_neg hzero]
        exact .digits hzero hrounds
          (Decimal.sixDigitText_general negative hpositive one_pos hrounds)

theorem spells_encode {text : List Char} (hshort : ∀ c ∈ text, Utf8.IsShort c) :
    Spells (Utf8.encode text) text := by
  rw [Spells, Utf8.encode_of_isShort hshort, List.map_map]
  exact List.map_congr_left fun c hmem => Utf8.toNat_byteOf (hshort c hmem)

namespace Decimal

theorem integerText_integer (number : Int) : IntegerText (integer number) number := by
  have htext := IntegerText.mk (signText_sign (decide (number < 0)))
    (allDigits_digits number.natAbs) (digits_ne_nil number.natAbs)
  have hvalue : signed (decide (number < 0)) number.natAbs = number := by
    simp only [signed, decide_eq_true_eq]
    split <;> omega
  have hinteger : sign (decide (number < 0)) ++ digits number.natAbs = integer number := by
    simp only [sign, integer, decide_eq_true_eq]
    split <;> rfl
  rwa [value_digits, hvalue, hinteger] at htext

theorem integer_eq_toString (number : Int) : integer number = (toString number).toList := by
  cases number with
  | ofNat number =>
      change integer number = (Nat.repr number).toList
      simp [integer, digits, Nat.repr]
  | negSucc number =>
      change integer (.negSucc number) = ("-" ++ Nat.repr (number + 1)).toList
      simp [integer, digits, Nat.repr]

end Decimal

theorem Binary64.Shows.isShort {number : Binary64} {text : List Char} (hshows : number.Shows text) :
    ∀ c ∈ text, Utf8.IsShort c := by
  cases hshows with
  | nan | infinite | negativeInfinite | zero | negativeZero => simp [Utf8.IsShort]
  | digits hnonzero hrounds htext =>
      obtain ⟨parts, hparts, -⟩ := (htext.denotes_iff _).mpr rfl
      exact Decimal.ofShort_decimalText hparts

/-- **What is printed is what the form of printing asks for.** -/
theorem PrintForm.prints_printed (form : PrintForm) (value : Value) :
    form.Prints value (Workspace.printed form value) := by
  cases form with
  | integer =>
      have hshort := Decimal.ofShort_integerText (Decimal.integerText_integer value.toInt64.toInt)
      refine .integer ?_
      rw [← Value.toInt_toInt64, ← Decimal.integer_eq_toString]
      exact spells_encode hshort
  | float =>
      have hshows := Binary64.shows_sixDigits value.toBinary64
      exact .float value.widens_toBinary64 hshows (spells_encode hshows.isShort)
  | byte =>
      refine .byte ?_
      rw [← Value.toInt_toInt64]
      exact value.toNat_toByte

/-! ## Reading -/

/-- The value kept of a double: the integer, if it is one in the range of 64 bits, or itself. -/
inductive Value.Keeps (number : Binary64) : Value → Prop where
  | integer {whole : Int64} (hwhole : number.toRat? = some (whole.toInt : ℚ)) :
      Keeps number (.integer whole)
  | float (hnone : ∀ whole : Int64, number.toRat? ≠ some (whole.toInt : ℚ)) :
      Keeps number (.float number)

/-- The value of an integer that is looked for.  One that is missing or out of range is minus
one. -/
inductive Value.OfInteger : Option ℤ → Value → Prop where
  | inRange (whole : Int64) : OfInteger (some whole.toInt) (.integer whole)
  | outOfRange {number : ℤ} (hnumber : ∀ whole : Int64, whole.toInt ≠ number) :
      OfInteger (some number) (.integer (-1))
  | missing : OfInteger none (.integer (-1))

/-- The value of a number in decimal notation that is looked for.  It is rounded once, and one that
is missing is minus one. -/
inductive Value.OfNumber : Option Decimal.Number → Value → Prop where
  | found {number : Decimal.Number} {double : Binary64} {value : Value}
      (hrounds : double.RoundsTo number.toRat number.negative) (hkeeps : value.Keeps double) :
      OfNumber (some number) value
  | missing : OfNumber none (.integer (-1))

/-- The value of a token: that of the longest integer at its front or, if there is a point anywhere,
of the longest number in decimal notation.  The end of the input is minus one. -/
inductive ReadsNumber : Option (List UInt8) → Value → Prop where
  | integer {token : List UInt8} {front? : Option (List UInt8)} {number? : Option ℤ} {value : Value}
      (hpoint : point ∉ token)
      (hfront : LongestIfAny (OnBytes Decimal.IntegerText) token front? number?)
      (hvalue : value.OfInteger number?) : ReadsNumber (some token) value
  | decimal {token : List UInt8} {front? : Option (List UInt8)}
      {number? : Option Decimal.Number} {value : Value} (hpoint : point ∈ token)
      (hfront : LongestIfAny (OnBytes Decimal.DecimalText) token front? number?)
      (hvalue : value.OfNumber number?) : ReadsNumber (some token) value
  | ended : ReadsNumber none (.integer (-1))

/-- The value of a byte, or minus one at the end of the input. -/
inductive ReadsByte : Option UInt8 → Value → Prop where
  | byte {byte : UInt8} {whole : Int64} (hwhole : whole.toInt = byte.toNat) :
      ReadsByte (some byte) (.integer whole)
  | ended : ReadsByte none (.integer (-1))

/-- The values of a text: one for each byte, and a zero under them. -/
inductive StoresText (bytes : List UInt8) : List Value → Prop where
  | mk {values : List Value}
      (hvalues : List.Forall₂ (fun byte value => ReadsByte (some byte) value) bytes values) :
      StoresText bytes (values ++ [.integer 0])

theorem Value.keeps_ofBinary64 (number : Binary64) : (ofBinary64 number).Keeps number := by
  rcases ofBinary64_cases number with ⟨whole, hwhole, hvalue⟩ | ⟨hnone, hvalue⟩
  · rw [hvalue]
    exact .integer (Binary64.toInt?_eq_some_iff.mp hwhole)
  · rw [hvalue]
    exact .float fun whole heq => hnone whole (Binary64.toInt?_eq_some_iff.mpr heq)

theorem Value.ofInteger?_spec (number? : Option ℤ) : (ofInteger? number?).OfInteger number? := by
  cases number? with
  | none => exact .missing
  | some number =>
      cases hwhole : asInt64? number with
      | none =>
          rw [ofInteger?, Option.bind_some, hwhole]
          refine .outOfRange fun whole heq => ?_
          rw [asInt64?_eq_some_iff.mpr heq] at hwhole
          cases hwhole
      | some whole =>
          obtain rfl := asInt64?_eq_some_iff.mp hwhole
          rw [ofInteger?, Option.bind_some, hwhole]
          exact .inRange whole

open Binary64 in
/-- The nearest double of a number in decimal notation is what the exact number is rounded to. -/
theorem Decimal.Number.nearest_rounds (number : Number) :
    number.nearest.RoundsTo number.toRat number.negative := by
  have hone : (one : ℚ) ≠ 0 := by exact_mod_cast one_pos.ne'
  have hscaled := scaled_div (number.coefficient * one) 1 number.exponent
  have hpositive : 0 < (scaled (number.coefficient * one) 1 number.exponent).2 :=
    Nat.mul_pos Nat.one_pos (Nat.pow_pos (by decide))
  unfold nearest nearestDecimal
  generalize scaled (number.coefficient * one) 1 number.exponent = fraction at *
  obtain ⟨numerator, denominator⟩ := fraction
  refine roundsTo_of_signed hpositive ?_
  rw [hscaled, Nat.cast_mul, Nat.cast_one, div_one, mul_right_comm, mul_div_cancel_right₀ _ hone,
    toRat]
  cases number.negative <;> simp [signed, Binary64.signed]

theorem Value.ofNumber?_spec (number? : Option Decimal.Number) :
    (ofNumber? number?).OfNumber number? := by
  cases number? with
  | none => exact .missing
  | some number =>
      rw [ofNumber?, Option.map_some, Option.getD_some]
      exact .found number.nearest_rounds (keeps_ofBinary64 _)

theorem readsNumber_numberRead (token? : Option (List UInt8)) :
    ReadsNumber token? (Workspace.numberRead token?) := by
  cases token? with
  | none => exact .ended
  | some token =>
      obtain ⟨front?, hread, -⟩ := exists_readAs token
      rw [Workspace.numberRead]
      generalize Value.ofToken (Utf8.decode token) = value at hread
      cases hread with
      | integer hpoint hfront => exact .integer hpoint hfront (Value.ofInteger?_spec _)
      | decimal hpoint hfront => exact .decimal hpoint hfront (Value.ofNumber?_spec _)

theorem readsByte_byteRead (byte? : Option UInt8) : ReadsByte byte? (Workspace.byteRead byte?) := by
  cases byte? with
  | none => exact .ended
  | some byte => exact .byte (Int64.toInt_ofNat_of_lt (by have := byte.toNat_lt; omega))

theorem storesText_textRead (bytes : List UInt8) : StoresText bytes (Workspace.textRead bytes) := by
  refine .mk ?_
  rw [List.forall₂_map_right_iff]
  exact List.forall₂_same.mpr fun byte _ => readsByte_byteRead (some byte)

end LetterMachine
